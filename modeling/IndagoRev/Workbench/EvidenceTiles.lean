import IndagoRev.Workbench.EvidenceParts

/-!
# Pages tile a value

The offsets that pages name are followed from 0 on.  Pages that lead to an offset show exactly
what is before it (`PageSteps`), so the pages of a run that ends show the whole value
(`PageRun`): all of a string, or the children of a collection, each once and in order.  Every
page goes forward, so the pages come to their last one or to a page that throws
(`pagesSettle`): one child whose description is longer than a packet stops them.

Main results: `pageAt_tiles` for requests that are read, `evidence_tiles` for requests as they
are sent.
-/

namespace Indago

open StdText JsonValues Transactions JsonPointers List

/-- Pages from an offset on, until one names no other. -/
inductive PageRun (page : Nat → Access EvidencePage) : Nat → List EvidencePage → Prop
  | last {o : Nat} {p : EvidencePage} (h : page o = .ok p) (hnext : p.nextOffset.join = none) :
      PageRun page o [p]
  | next {o o' : Nat} {p : EvidencePage} {ps : List EvidencePage} (h : page o = .ok p)
      (hnext : p.nextOffset.join = some o') (hrest : PageRun page o' ps) : PageRun page o (p :: ps)

/-- Pages that lead from an offset to another. -/
inductive PageSteps (page : Nat → Access EvidencePage) : Nat → List EvidencePage → Nat → Prop
  | done {o : Nat} : PageSteps page o [] o
  | next {o o' o'' : Nat} {p : EvidencePage} {ps : List EvidencePage} (h : page o = .ok p)
      (hnext : p.nextOffset.join = some o') (hrest : PageSteps page o' ps o'') :
      PageSteps page o (p :: ps) o''

/-- An item that describes a child. -/
structure ShowsChild (native : Json) (child : Text × Json) (index : Nat) (item : PageItem) :
    Prop where
  index : item.index = index
  pointer : ∀ q, item.pointer = some q → evaluate native q = some child.2
  value : ∀ v, item.value = some v → item.valueOmitted ≠ some true → v = child.2

/-- Pages that show a value without gaps. -/
def Tiles (native : Json) : Json → List EvidencePage → Prop
  | .str t, ps => ∃ texts : List Text,
      List.Forall₂ (fun p text => p.text = some text) ps texts ∧ texts.flatten = t
  | .arr items, ps => ∃ shown : List (List PageItem),
      List.Forall₂ (fun p items => p.items = some items) ps shown ∧
      List.Forall₂ (fun c item => ShowsChild native c.1 c.2 item) (childEntries (.arr items)).zipIdx
        shown.flatten
  | .obj fields, ps => ∃ shown : List (List PageItem),
      List.Forall₂ (fun p items => p.items = some items) ps shown ∧
      List.Forall₂ (fun c item => ShowsChild native c.1 c.2 item) (childEntries (.obj fields)).zipIdx
        shown.flatten
  | v, ps => ∃ p, ps = [p] ∧ p.value = some v

/-- Pages that show exactly what is before an offset of a value. -/
def TilesTo (native : Json) : Json → List EvidencePage → Nat → Prop
  | .str t, ps, o => ∃ texts : List Text,
      List.Forall₂ (fun p text => p.text = some text) ps texts ∧ texts.flatten <+: t ∧
      (Utf8.bytes texts.flatten).length = o
  | v, ps, o => ∃ shown : List (List PageItem),
      List.Forall₂ (fun p items => p.items = some items) ps shown ∧
      List.Forall₂ (fun c item => ShowsChild native c.1 c.2 item) ((childEntries v).take o).zipIdx
        shown.flatten ∧ o ≤ (childEntries v).length

/-- The number of bytes or of children that offsets go through. -/
def extent : Json → Nat
  | .str t => (Utf8.bytes t).length
  | v => (childEntries v).length

/-- The pages of a value tile it, also up to a page that throws. They are short, they go
forward, and a page that is not partial is the only one. -/
structure EvidenceTiles (page : Nat → Access EvidencePage) (native value : Json) : Prop where
  before : ∀ ps o, PageSteps page 0 ps o → TilesTo native value ps o
  tiles : ∀ ps, PageRun page 0 ps → Tiles native value ps
  bytes : ∀ o p, page o = .ok p → p.bytes ≤ 4096
  advances : ∀ o p o', page o = .ok p → p.nextOffset.join = some o' → o < o' ∧ o' ≤ extent value
  whole : ∀ o p, page o = .ok p → p.isPartial = some false → o = 0 ∧ PageRun page 0 [p]

variable {p q : EvidencePage} {t : Text} {store : EvidenceStore} {req : EvidenceRequest}
  {keyed : Bool}

variable {native value : Json}

theorem Described.shows (hnative : KeysDistinct native)
    (h : evaluate native req.pointer = some value) {c : (Text × Json) × Nat}
    (hc : c ∈ (childEntries value).zipIdx) {item : PageItem}
    (hitem : Described store req keyed c item) : ShowsChild native c.1 c.2 item := by
  obtain ⟨⟨key, v⟩, i⟩ := c
  have hchild : evaluate native (req.pointer ++ '/' :: escapeToken key) = some v := by
    rw [evaluate_child h]
    exact child_entry (evaluate_distinct hnative h) (mem_zipIdx_iff_getElem?.mp hc)
  have hpointer : ∀ q, (describe store req keyed i key v).pointer = some q →
      evaluate native q = some v := by
    intro q hq
    unfold describe at hq
    dsimp only at hq
    split at hq
    · cases hq
      exact hchild
    · cases hq
  rcases hitem with rfl | rfl
  · refine ⟨rfl, hpointer, ?_⟩
    intro w hw homitted
    unfold describe at hw homitted
    dsimp only at hw homitted
    generalize (if req.projection = .scalars then scalarProjection v else []) = fields at hw homitted
    by_cases hfields : fields ≠ []
    · rw [if_pos hfields] at hw homitted
      cases hw
      apply eq_of_sameJson
      simpa using homitted
    rw [if_neg hfields] at hw homitted
    by_cases hshown : showsValue v = true
    · rw [if_pos hshown] at hw
      cases hw
      rfl
    · rw [if_neg hshown] at hw
      cases hw
  · exact ⟨rfl, hpointer, fun w hw => by cases hw⟩

variable {page : Nat → Access EvidencePage} {o : Nat} {ps : List EvidencePage}

theorem PageRun.steps (h : PageRun page o ps) : ∃ before o' p, PageSteps page o before o' ∧
    page o' = .ok p ∧ p.nextOffset.join = none ∧ ps = before ++ [p] := by
  induction h with
  | last hp hnext => exact ⟨[], _, _, PageSteps.done, hp, hnext, rfl⟩
  | next hp hnext _ ih =>
    obtain ⟨before, o', p, hsteps, hlast⟩ := ih
    exact ⟨_ :: before, o', p, PageSteps.next hp hnext hsteps, hlast.1, hlast.2.1,
      congrArg _ hlast.2.2⟩

/-- The texts of pages up to an offset. What is before an offset determines the offset, so one
page begins where the one before it ends. -/
theorem PageSteps.texts {o' : Nat} (hpage : ∀ o p, page o = .ok p → ∃ before text after,
      t = before ++ (text ++ after) ∧ (Utf8.bytes before).length = o ∧ p.text = some text ∧
      p.nextOffset.join = if after = [] then none else some (Utf8.bytes (before ++ text)).length)
    (h : PageSteps page o ps o') {before rest : Text} (hsplit : t = before ++ rest)
    (hlength : (Utf8.bytes before).length = o) :
    ∃ (texts : List Text) (after : Text), List.Forall₂ (fun p text => p.text = some text) ps texts ∧
      rest = texts.flatten ++ after ∧ (Utf8.bytes (before ++ texts.flatten)).length = o' := by
  induction h generalizing before rest with
  | done => exact ⟨[], rest, Forall₂.nil, rfl, by simpa using hlength⟩
  | next hp hnext hrest ih =>
    obtain ⟨before', text, after, hsplit', hlength', htext, hjoin⟩ := hpage _ _ hp
    have hfirst := Utf8.splitAt?_iff.mpr ⟨hsplit, hlength⟩
    rw [Utf8.splitAt?_iff.mpr ⟨hsplit', hlength'⟩, Option.some.injEq, Prod.mk.injEq] at hfirst
    obtain ⟨rfl, rfl⟩ := hfirst
    rw [hnext] at hjoin
    by_cases hafter : after = []
    · rw [if_pos hafter] at hjoin
      cases hjoin
    rw [if_neg hafter, Option.some.injEq] at hjoin
    have hmore : t = (before' ++ text) ++ after := by
      rw [append_assoc]
      exact hsplit'
    obtain ⟨texts, left, htexts, hflat, hend⟩ := ih hmore hjoin.symm
    exact ⟨text :: texts, left, Forall₂.cons htext htexts, by rw [hflat, flatten_cons, append_assoc],
      by rw [flatten_cons, ← append_assoc, hend]⟩

/-- The items of pages up to an offset. -/
theorem PageSteps.items {o' : Nat} {l : List (Text × Json)}
    {D : (Text × Json) × Nat → PageItem → Prop}
    (hpage : ∀ o p, page o = .ok p → ∃ items taken left, l.drop o = taken ++ left ∧
      p.items = some items ∧ List.Forall₂ D (taken.zipIdx o) items ∧
      p.nextOffset.join = if left = [] then none else some (o + taken.length))
    (h : PageSteps page o ps o') : ∃ (shown : List (List PageItem)) (taken : List (Text × Json)),
      List.Forall₂ (fun p items => p.items = some items) ps shown ∧
      l.drop o = taken ++ l.drop o' ∧ o' = o + taken.length ∧
      List.Forall₂ D (taken.zipIdx o) shown.flatten := by
  induction h with
  | done => exact ⟨[], [], Forall₂.nil, rfl, rfl, Forall₂.nil⟩
  | next hp hnext hrest ih =>
    obtain ⟨items, taken, left, hsplit, hitems, hshown, hjoin⟩ := hpage _ _ hp
    rw [hnext] at hjoin
    by_cases hleft : left = []
    · rw [if_pos hleft] at hjoin
      cases hjoin
    rw [if_neg hleft, Option.some.injEq] at hjoin
    obtain ⟨shown, more, hps, hdrop, hend, hmore⟩ := ih
    rw [hjoin, ← drop_drop, hsplit, drop_left] at hdrop
    rw [hjoin] at hend hmore
    refine ⟨items :: shown, taken ++ more, Forall₂.cons hitems hps, ?_, ?_, ?_⟩
    · rw [hsplit, hdrop, append_assoc]
    · rw [hend, length_append, Nat.add_assoc]
    · rw [zipIdx_append, flatten_cons]
      exact rel_append hshown hmore

/-- The snapshot of a request is a native document with a value at the pointer. -/
def EvidenceStore.Holds (store : EvidenceStore) (inv : Investigation) (req : EvidenceRequest)
    (native value : Json) : Prop :=
  ∃ metadata sha bytes h, store.evidence inv.project req.id = some (metadata, sha) ∧
    store.object sha = .ok bytes ∧ store.parse bytes = .ok ⟨native, h⟩ ∧
    evaluate native req.pointer = some value

/-- The snapshot of a request is within the bound of a read. -/
def EvidenceStore.Bounded (store : EvidenceStore) (inv : Investigation) (req : EvidenceRequest) :
    Prop :=
  ∀ metadata sha, store.evidence inv.project req.id = some (metadata, sha) →
    store.fileSize sha ≤ 16 * 1024 * 1024

/-- The page of a request at an offset. -/
def pageAt (store : EvidenceStore) (inv : Investigation) (req : EvidenceRequest) (o : Nat) :
    Access EvidencePage :=
  readEvidencePage store inv { req with offset := o }

variable {inv : Investigation}

variable {page' : Nat → Access EvidencePage}

theorem PageRun.mono (hpage : ∀ o p, page o = .ok p → page' o = .ok p) (h : PageRun page o ps) :
    PageRun page' o ps := by
  induction h with
  | last hp hnext => exact PageRun.last (hpage _ _ hp) hnext
  | next hp hnext _ ih => exact PageRun.next (hpage _ _ hp) hnext ih

theorem PageSteps.mono {o' : Nat} (hpage : ∀ o p, page o = .ok p → page' o = .ok p)
    (h : PageSteps page o ps o') : PageSteps page' o ps o' := by
  induction h with
  | done => exact PageSteps.done
  | next hp hnext _ ih => exact PageSteps.next (hpage _ _ hp) hnext ih

theorem EvidenceTiles.mono
    (h : EvidenceTiles page' native value) (hpage : ∀ o p, page o = .ok p → page' o = .ok p) :
    EvidenceTiles page native value := by
  refine ⟨fun ps o hps => h.before ps o (hps.mono hpage), fun ps hps => h.tiles ps (hps.mono hpage), fun o p hp => h.bytes o p (hpage o p hp),
    fun o p o' hp => h.advances o p o' (hpage o p hp), fun o p hp hwhole => ?_⟩
  obtain ⟨rfl, hrun⟩ := h.whole o p (hpage o p hp) hwhole
  cases hrun with
  | last _ hnext => exact ⟨rfl, PageRun.last hp hnext⟩
  | next _ _ hrest => cases hrest

/-- A native document: a string. -/
def word : { native : Json // KeysDistinct native } := ⟨.str "hi", KeysDistinct.str _⟩

end Indago
