import IndagoRev.Airece.CallPaging

/-!
# What a byte budget leaves of a view

A line is written when it fits into what is left, whether or not an earlier one did, and the
footer goes behind the lines without a budget of its own.  So a view is cut to an initial
segment exactly when no line behind the first that does not fit is short enough for the rest,
and it stays within its bytes exactly when that segment leaves room for the footer.
-/

namespace Airece

open StdText List

/-- The lines that are kept of a rendering. -/
def keptLines (maxBytes : Nat) (lines : List CompactLine) : List CompactLine :=
  ({ limit := maxBytes } : BudgetWriter).taken lines

variable (lines : List CompactLine)

/-- Lines with their line breaks. -/
def lineText : Text := lines.flatMap (fun l => l.text ++ ['\n'])

theorem length_lineText : (lineText lines).length = lineBytes lines := by
  induction lines with
  | nil => rfl
  | cons l rest ih =>
    unfold lineText at ih ⊢
    rw [flatMap_cons, length_append, ih, length_append]
    rfl

theorem lineBytes_cons (l : CompactLine) (rest : List CompactLine) :
    lineBytes (l :: rest) = l.text.length + 1 + lineBytes rest := rfl

theorem lineBytes_append (first rest : List CompactLine) :
    lineBytes (first ++ rest) = lineBytes first + lineBytes rest := by
  unfold lineBytes
  rw [map_append, sum_append]

theorem BudgetWriter.omitted_foldl (w : BudgetWriter) (lines : List CompactLine) :
    (lines.foldl (fun w l => w.line l.text) w).omitted + (w.taken lines).length =
      w.omitted + lines.length := by
  induction lines generalizing w with
  | nil => rfl
  | cons l rest ih =>
    rw [foldl_cons, BudgetWriter.taken]
    have hrest := ih (w.line l.text)
    cases h : w.fits l.text with
    | true =>
      rw [if_pos rfl, length_cons, length_cons]
      rw [BudgetWriter.line_of_fits h] at hrest ⊢
      dsimp only at hrest
      omega
    | false =>
      rw [if_neg (by simp), length_cons]
      rw [BudgetWriter.line_of_not_fits h] at hrest ⊢
      dsimp only at hrest
      omega

theorem BudgetWriter.taken_omitted (w : BudgetWriter) (n : Nat) (lines : List CompactLine) :
    ({ w with omitted := n } : BudgetWriter).taken lines = w.taken lines := by
  induction lines generalizing w n with
  | nil => rfl
  | cons l rest ih =>
    have hsame : ({ w with omitted := n } : BudgetWriter).fits l.text = w.fits l.text := rfl
    rw [BudgetWriter.taken, BudgetWriter.taken, hsame]
    cases h : w.fits l.text with
    | true =>
      rw [if_pos rfl, if_pos rfl, BudgetWriter.line_of_fits h,
        BudgetWriter.line_of_fits (hsame.trans h)]
      exact congrArg (l :: ·) (ih { w with text := w.text ++ l.text ++ ['\n'] } n)
    | false =>
      rw [if_neg (by simp), if_neg (by simp), BudgetWriter.line_of_not_fits h,
        BudgetWriter.line_of_not_fits (hsame.trans h)]
      exact (ih w (n + 1)).trans (ih w (w.omitted + 1)).symm

variable {w : BudgetWriter} {lines : List CompactLine}

theorem BudgetWriter.taken_nil (h : ∀ l ∈ lines, w.fits l.text = false) : w.taken lines = [] := by
  induction lines generalizing w with
  | nil => rfl
  | cons l rest ih =>
    have hl := h l mem_cons_self
    rw [BudgetWriter.taken, if_neg (by rw [hl]; simp)]
    refine ih (fun l' hl' => ?_)
    rw [BudgetWriter.line_of_not_fits hl]
    exact h l' (mem_cons_of_mem _ hl')

variable {l : CompactLine}

/-- The first line that is taken fits into what was left before. -/
theorem BudgetWriter.fits_of_taken {lines kept : List CompactLine}
    (h : w.taken lines = l :: kept) : w.fits l.text = true := by
  induction lines generalizing w with
  | nil => cases h
  | cons first rest ih =>
    rw [BudgetWriter.taken] at h
    cases hfirst : w.fits first.text with
    | true =>
      rw [hfirst, if_pos rfl] at h
      rw [← (List.cons.inj h).1]
      exact hfirst
    | false =>
      rw [hfirst, if_neg (by simp), BudgetWriter.line_of_not_fits hfirst,
        BudgetWriter.taken_omitted] at h
      exact ih h

theorem BudgetWriter.taken_ne_nil
    (hl : l ∈ lines) (hfits : w.fits l.text = true) : w.taken lines ≠ [] := by
  induction lines generalizing w with
  | nil => cases hl
  | cons first rest ih =>
    rw [BudgetWriter.taken]
    cases hfirst : w.fits first.text with
    | true =>
      rw [if_pos rfl]
      exact cons_ne_nil _ _
    | false =>
      rw [if_neg (by simp)]
      rcases mem_cons.mp hl with rfl | hrest
      · rw [hfirst] at hfits
        cases hfits
      · refine ih hrest ?_
        rw [BudgetWriter.line_of_not_fits hfirst]
        exact hfits

/-- Behind a text of some bytes, no line after the first that does not fit is short enough for
what is left. -/
def NoneFitsLater (limit before : Nat) (lines : List CompactLine) : Prop :=
  ∀ first l rest, lines = first ++ l :: rest → before + lineBytes first ≤ limit →
    limit < before + lineBytes first + (l.text.length + 1) →
    ∀ l' ∈ rest, limit < before + lineBytes first + (l'.text.length + 1)

variable {rest : List CompactLine}

theorem noneFitsLater_cons {limit before : Nat}
    (h : before + (l.text.length + 1) ≤ limit) : NoneFitsLater limit before (l :: rest) ↔
      NoneFitsLater limit (before + (l.text.length + 1)) rest := by
  constructor
  · intro hall first l' later hsplit hfirst hlater
    have hbytes := lineBytes_cons l first
    have hlong := hall (l :: first) l' later (by rw [hsplit]; rfl) (by omega) (by omega)
    intro l'' hl''
    have hless := hlong l'' hl''
    omega
  intro hall first l' later hsplit hfirst hlater
  cases first with
  | nil =>
    have hl : l = l' := (List.cons.inj hsplit).1
    subst hl
    have hbytes : lineBytes [] = 0 := rfl
    omega
  | cons l₀ first =>
    have hl : l = l₀ := (List.cons.inj hsplit).1
    subst hl
    have hbytes := lineBytes_cons l first
    have hlong := hall first l' later (List.cons.inj hsplit).2 (by omega) (by omega)
    intro l'' hl''
    have hless := hlong l'' hl''
    omega

/-- The lines that are taken are the first ones exactly when none fits after one that does
not. -/
theorem BudgetWriter.taken_prefix_iff (hlimit : w.limit ≠ 0)
    (hw : w.text.length ≤ w.limit) (lines : List CompactLine) :
    w.taken lines <+: lines ↔ NoneFitsLater w.limit w.text.length lines := by
  have hfits : ∀ {v : BudgetWriter} {value : Text}, v.limit ≠ 0 →
      (v.fits value = true ↔ v.text.length + (value.length + 1) ≤ v.limit) := by
    intro v value hv
    simp [BudgetWriter.fits, hv]
  induction lines generalizing w with
  | nil =>
    refine iff_of_true prefix_rfl ?_
    intro first l rest hsplit
    cases first <;> cases hsplit
  | cons l rest ih =>
    rw [BudgetWriter.taken]
    cases h : w.fits l.text with
    | true =>
      have hroom := (hfits hlimit).mp h
      have hlength : (w.line l.text).text.length = w.text.length + (l.text.length + 1) := by
        rw [BudgetWriter.line_of_fits h]
        simp only [length_append, length_cons, length_nil]
        omega
      have hlater := ih (w := w.line l.text) (by rw [BudgetWriter.line_limit]; exact hlimit)
        (by rw [BudgetWriter.line_limit, hlength]; exact hroom)
      rw [BudgetWriter.line_limit, hlength] at hlater
      rw [if_pos rfl, prefix_cons_inj, noneFitsLater_cons hroom]
      exact hlater
    | false =>
      have hfull : w.limit < w.text.length + (l.text.length + 1) := by
        refine Nat.lt_of_not_le (fun hroom => ?_)
        rw [(hfits hlimit).mpr hroom] at h
        cases h
      have hnone : w.taken rest <+: l :: rest ↔ w.taken rest = [] := by
        constructor
        · intro hprefix
          cases hkept : w.taken rest with
          | nil => rfl
          | cons first kept =>
            rw [hkept] at hprefix
            have hsame := (cons_prefix_cons.mp hprefix).1
            have hfirst := BudgetWriter.fits_of_taken hkept
            rw [hsame, h] at hfirst
            cases hfirst
        · intro hkept
          rw [hkept]
          exact nil_prefix
      have hline : (w.line l.text).taken rest = w.taken rest := by
        rw [BudgetWriter.line_of_not_fits h]
        exact BudgetWriter.taken_omitted w (w.omitted + 1) rest
      rw [if_neg (by simp), hline, hnone]
      constructor
      · intro hkept first l' later hsplit hfirst hlong l'' hl''
        cases first with
        | nil =>
          have hrest := (List.cons.inj hsplit).2
          refine Nat.lt_of_not_le (fun hroom => ?_)
          have hbytes : lineBytes [] = 0 := rfl
          rw [hbytes] at hroom
          exact BudgetWriter.taken_ne_nil (hrest ▸ hl'') ((hfits hlimit).mpr hroom) hkept
        | cons l₀ first =>
          have hl : l = l₀ := (List.cons.inj hsplit).1
          subst hl
          have hbytes := lineBytes_cons l first
          omega
      · intro hall
        refine BudgetWriter.taken_nil (fun l' hl' => ?_)
        have hlong := hall [] l rest rfl hw hfull l' hl'
        have hbytes : lineBytes [] = 0 := rfl
        rw [hbytes] at hlong
        refine Bool.eq_false_iff.mpr (fun hfit => ?_)
        have hroom := (hfits hlimit).mp hfit
        omega

section Views

variable {view : CompactFunctionView} {maxBytes offset : Nat} {lines : List CompactLine}

/-- The footer behind some of the lines. -/
def footerBehind (view : CompactFunctionView) (offset : Nat) (lines kept : List CompactLine) :
    Text :=
  omittedFooter view (lines.length - kept.length) offset

/-- A rendering as it is written: the lines that are kept, and the footer. -/
def renderedText (view : CompactFunctionView) (maxBytes offset : Nat) (lines : List CompactLine) : Text :=
  lineText (keptLines maxBytes lines) ++
    footerBehind view offset lines (keptLines maxBytes lines)

/-- A rendering is cut to an initial segment of its lines, within its bytes where these have room
for the footer, and has a footer where something is left out. -/
structure IsCutPrefix (view : CompactFunctionView) (maxBytes offset : Nat)
    (lines : List CompactLine) (text : Text) : Prop where
  shows : text = renderedText view maxBytes offset lines
  initial : keptLines maxBytes lines <+: lines
  within : (footerBehind view offset lines (keptLines maxBytes lines)).length ≤ maxBytes →
    text.length ≤ maxBytes
  footer : footerBehind view offset lines (keptLines maxBytes lines) ≠ [] ↔
    view.omitted.any = true ∨ keptLines maxBytes lines ≠ lines

theorem text_cut :
    (lines.foldl (fun w l => w.line l.text) ({ limit := maxBytes } : BudgetWriter)).text ++
      omittedFooter view (lines.foldl (fun w l => w.line l.text)
        ({ limit := maxBytes } : BudgetWriter)).omitted offset =
      renderedText view maxBytes offset lines := by
  have homitted := BudgetWriter.omitted_foldl { limit := maxBytes } lines
  have hcount : (lines.foldl (fun w l => w.line l.text)
      ({ limit := maxBytes } : BudgetWriter)).omitted =
        lines.length - (keptLines maxBytes lines).length := by
    unfold keptLines
    dsimp only at homitted
    omega
  rw [hcount, BudgetWriter.text_foldl]
  rfl

theorem footerBehind_ne_nil : footerBehind view offset lines (keptLines maxBytes lines) ≠ [] ↔
      view.omitted.any = true ∨ keptLines maxBytes lines ≠ lines := by
  have hsub := BudgetWriter.taken_sublist { limit := maxBytes } lines
  have hall : keptLines maxBytes lines ≠ lines ↔
      lines.length - (keptLines maxBytes lines).length ≠ 0 := by
    constructor
    · intro hne heq
      exact hne (hsub.eq_of_length_le (by unfold keptLines at heq; omega))
    · intro hne heq
      rw [heq] at hne
      omega
  rw [hall]
  unfold footerBehind omittedFooter
  generalize lines.length - (keptLines maxBytes lines).length = n
  have hany : ({ view.omitted with statements := view.omitted.statements + n } :
      OmittedSemanticItems).any = true ↔ view.omitted.any = true ∨ n ≠ 0 := by
    simp only [OmittedSemanticItems.any, Bool.or_eq_true, bne_iff_ne]
    omega
  dsimp only
  rw [← hany]
  cases ({ view.omitted with statements := view.omitted.statements + n } :
      OmittedSemanticItems).any with
  | false => simp
  | true => simp

/-- The first lines up to one that does not fit. -/
def UpToFull (maxBytes : Nat) (first rest : List CompactLine) : Prop :=
  lineBytes first ≤ maxBytes ∧
    ∀ l ∈ rest.head?, maxBytes < lineBytes first + (l.text.length + 1)

theorem BudgetWriter.text_within (hlimit : w.limit ≠ 0)
    (hw : w.text.length ≤ w.limit) (lines : List CompactLine) :
    w.text.length + lineBytes (w.taken lines) ≤ w.limit := by
  induction lines generalizing w with
  | nil => exact hw
  | cons l rest ih =>
    rw [BudgetWriter.taken]
    cases h : w.fits l.text with
    | true =>
      have hroom : w.text.length + (l.text.length + 1) ≤ w.limit := by
        simpa [BudgetWriter.fits, hlimit] using h
      have hlength : (w.line l.text).text.length = w.text.length + (l.text.length + 1) := by
        rw [BudgetWriter.line_of_fits h]
        simp only [length_append, length_cons, length_nil]
        omega
      have hrest := ih (w := w.line l.text) (by rw [BudgetWriter.line_limit]; exact hlimit)
        (by rw [BudgetWriter.line_limit, hlength]; exact hroom)
      rw [BudgetWriter.line_limit, hlength] at hrest
      rw [if_pos rfl, lineBytes_cons]
      omega
    | false =>
      rw [if_neg (by simp), BudgetWriter.line_of_not_fits h, BudgetWriter.taken_omitted]
      exact ih hlimit hw

/-- Where the kept lines are the first ones, they are those up to the first that does not fit. -/
theorem kept_upToFull (hlimit : maxBytes ≠ 0) (hsplit : lines = keptLines maxBytes lines ++ rest) :
    UpToFull maxBytes (keptLines maxBytes lines) rest := by
  have hwithin : lineBytes (keptLines maxBytes lines) ≤ maxBytes := by
    have htext := BudgetWriter.text_within (w := { limit := maxBytes }) hlimit (Nat.zero_le _) lines
    have hempty : ({ limit := maxBytes } : BudgetWriter).text.length = 0 := rfl
    rw [hempty, Nat.zero_add] at htext
    exact htext
  refine ⟨hwithin, ?_⟩
  generalize hkept : keptLines maxBytes lines = kept at hsplit hwithin
  intro l hl
  have hwhole : keptLines maxBytes kept = kept :=
    (BudgetWriter.taken_eq_self_iff _ _).mpr (Or.inr (Or.inr (by simpa using hwithin)))
  have happend := BudgetWriter.taken_append { limit := maxBytes } kept rest
  unfold keptLines at hkept hwhole
  rw [← hsplit, hkept, hwhole] at happend
  have hnone := self_eq_append_right.mp happend
  refine Nat.lt_of_not_le (fun hroom => ?_)
  refine BudgetWriter.taken_ne_nil (mem_of_mem_head? hl) ?_ hnone
  have hlength : (kept.foldl (fun w l => w.line l.text)
      ({ limit := maxBytes } : BudgetWriter)).text.length = lineBytes kept := by
    rw [BudgetWriter.text_foldl, hwhole, nil_append]
    exact length_lineText kept
  simp [BudgetWriter.fits, BudgetWriter.limit_foldl, hlength, hroom]

theorem upToFull_unique {first rest first' rest' : List CompactLine}
    (hsplit : first ++ rest = first' ++ rest') (h : UpToFull maxBytes first rest)
    (h' : UpToFull maxBytes first' rest') : first = first' := by
  have hless : ∀ {p q p' q' : List CompactLine}, p ++ q = p' ++ q' → UpToFull maxBytes p q →
      UpToFull maxBytes p' q' → p'.length ≤ p.length := by
    intro p q p' q' heq hp hp'
    refine Nat.le_of_not_lt (fun hshort => ?_)
    rcases append_eq_append_iff.mp heq with ⟨more, hmore, hq⟩ | ⟨more, hmore, hq⟩
    · cases more with
      | nil =>
        rw [hmore, append_nil] at hshort
        exact Nat.lt_irrefl _ hshort
      | cons l more =>
        have hfull := hp.2 l (by rw [hq]; rfl)
        have hbytes := hp'.1
        rw [hmore, lineBytes_append, lineBytes_cons] at hbytes
        omega
    · rw [hmore, length_append] at hshort
      omega
  have hlength : first.length = first'.length :=
    Nat.le_antisymm (hless hsplit.symm h' h) (hless hsplit h h')
  exact (append_inj hsplit hlength).1

/-- The lines up to the first that does not fit leave room for the footer, if there is room for
it at all. -/
def LeavesFooterRoom (view : CompactFunctionView) (maxBytes offset : Nat)
    (lines : List CompactLine) : Prop :=
  ∀ first rest, lines = first ++ rest → UpToFull maxBytes first rest →
    (footerBehind view offset lines first).length ≤ maxBytes →
    lineBytes first + (footerBehind view offset lines first).length ≤ maxBytes

/-- A rendering is cut as it should be exactly when no line fits behind one that does not, and the
lines before that one leave room for the footer. -/
theorem isCutPrefix_iff (hlimit : maxBytes ≠ 0) :
    IsCutPrefix view maxBytes offset lines (renderedText view maxBytes offset lines) ↔
      NoneFitsLater maxBytes 0 lines ∧ LeavesFooterRoom view maxBytes offset lines := by
  have hinitial : keptLines maxBytes lines <+: lines ↔ NoneFitsLater maxBytes 0 lines :=
    BudgetWriter.taken_prefix_iff (w := { limit := maxBytes }) hlimit (Nat.zero_le _) lines
  have hlength : (renderedText view maxBytes offset lines).length =
      lineBytes (keptLines maxBytes lines) +
        (footerBehind view offset lines (keptLines maxBytes lines)).length := by
    unfold renderedText
    rw [length_append, length_lineText]
  constructor
  · intro h
    refine ⟨hinitial.mp h.initial, fun first rest hsplit hfull hfooter => ?_⟩
    obtain ⟨more, hmore⟩ := h.initial
    have hsame : first = keptLines maxBytes lines :=
      upToFull_unique (hsplit.symm.trans hmore.symm) hfull (kept_upToFull hlimit hmore.symm)
    have hwithin := h.within
    rw [hlength, ← hsame] at hwithin
    exact hwithin hfooter
  · rintro ⟨hnone, hroom⟩
    obtain ⟨more, hmore⟩ := hinitial.mpr hnone
    refine ⟨rfl, hinitial.mpr hnone, fun hfooter => ?_, footerBehind_ne_nil⟩
    rw [hlength]
    exact hroom _ more hmore.symm (kept_upToFull hlimit hmore.symm) hfooter

theorem uncut_of_fits (hfits : lineBytes lines ≤ maxBytes) (hnone : view.omitted.any = false) :
    NoneFitsLater maxBytes 0 lines ∧ LeavesFooterRoom view maxBytes offset lines := by
  constructor
  · intro first l rest hsplit hfirst hlong
    rw [hsplit, lineBytes_append, lineBytes_cons] at hfits
    omega
  intro first rest hsplit hfull hfooter
  cases rest with
  | nil =>
    rw [append_nil] at hsplit
    have hempty : footerBehind view offset lines first = [] := by
      unfold footerBehind omittedFooter
      rw [hsplit, Nat.sub_self]
      dsimp only
      rw [Nat.add_zero, hnone]
      rfl
    rw [hempty]
    exact hfull.1
  | cons l rest =>
    have hlong := hfull.2 l rfl
    rw [hsplit, lineBytes_append, lineBytes_cons] at hfits
    omega

/-- Lines that are cut where those that follow do not fit, before a footer with enough room. -/
theorem cut_of_split {first rest : List CompactLine} (hsplit : lines = first ++ rest)
    (hfull : UpToFull maxBytes first rest)
    (hlong : ∀ l ∈ rest, maxBytes < lineBytes first + (l.text.length + 1))
    (hroom : (footerBehind view offset lines first).length ≤ maxBytes →
      lineBytes first + (footerBehind view offset lines first).length ≤ maxBytes) :
    NoneFitsLater maxBytes 0 lines ∧ LeavesFooterRoom view maxBytes offset lines := by
  constructor
  · intro first' l rest' hsplit' hfirst hless l' hl'
    rw [Nat.zero_add] at hfirst hless ⊢
    have hfull' : UpToFull maxBytes first' (l :: rest') := by
      refine ⟨hfirst, fun l'' hl'' => ?_⟩
      cases hl''
      exact hless
    have hsame : first' = first := upToFull_unique (hsplit'.symm.trans hsplit) hfull' hfull
    subst hsame
    have hrest : l :: rest' = rest := append_cancel_left (hsplit'.symm.trans hsplit)
    exact hlong l' (hrest ▸ mem_cons_of_mem _ hl')
  · intro first' rest' hsplit' hfull'
    have hsame : first' = first := upToFull_unique (hsplit'.symm.trans hsplit) hfull' hfull
    rw [hsame]
    exact hroom

end Views

/-- The lines of the pseudo view. -/
def pseudoTexts (view : CompactFunctionView) : List CompactLine :=
  (pseudoLines view).map (fun l => { text := l.text view })

theorem renderPseudo_renderedText {view : CompactFunctionView} (hok : view.ok = true)
    (maxBytes offset : Nat) : (renderPseudo view maxBytes offset).text =
      renderedText view maxBytes offset (pseudoTexts view) := by
  have hwrites : writeLines view { limit := maxBytes } (pseudoLines view) =
      (pseudoTexts view).foldl (fun w l => w.line l.text)
        ({ limit := maxBytes } : BudgetWriter) := by
    unfold writeLines pseudoTexts
    rw [foldl_map]
  unfold renderPseudo
  rw [if_neg (by rw [hok]; simp), hwrites]
  exact text_cut

theorem renderCompact_renderedText {f : CompactInput} {begins : ControlEvidence}
    {options : CompactOptions} (hok : (f.view options).ok = true) :
    (f.renderCompact begins options).text =
      renderedText (f.view options) options.maxBytes options.callOffset
        (f.compactLines begins options) := by
  unfold CompactInput.renderCompact
  rw [if_neg (by rw [hok]; simp)]
  exact text_cut

/-- A compact and a pseudo view are cut to an initial segment of their lines, within their bytes and
with a footer for what is left out, exactly when no line fits behind the first that does not,
and the lines before that one leave room for the footer. -/
theorem truncated_views (f : CompactInput) (begins : ControlEvidence) (options : CompactOptions)
    (view : CompactFunctionView) (maxBytes offset : Nat) (hcompact : options.maxBytes ≠ 0)
    (hpseudo : maxBytes ≠ 0) : ((f.view options).ok = true →
      (IsCutPrefix (f.view options) options.maxBytes options.callOffset
        (f.compactLines begins options) (f.renderCompact begins options).text ↔
      NoneFitsLater options.maxBytes 0 (f.compactLines begins options) ∧
        LeavesFooterRoom (f.view options) options.maxBytes options.callOffset
          (f.compactLines begins options))) ∧ (view.ok = true →
      (IsCutPrefix view maxBytes offset (pseudoTexts view)
        (renderPseudo view maxBytes offset).text ↔ NoneFitsLater maxBytes 0 (pseudoTexts view) ∧
        LeavesFooterRoom view maxBytes offset (pseudoTexts view))) := by
  constructor
  · intro hok
    rw [renderCompact_renderedText hok]
    exact isCutPrefix_iff hcompact
  · intro hok
    rw [renderPseudo_renderedText hok]
    exact isCutPrefix_iff hpseudo

/-- A function without blocks. -/
def bareView : CompactFunctionView where
  statements := []
  control := { blockOrder := [], regions := [], transfers := [] }

/-- In four bytes there is no room for the signature, and the braces are written. -/
theorem braces_written :
    ¬ IsCutPrefix bareView 4 0 (pseudoTexts bareView) (renderPseudo bareView 4 0).text := by
  intro h
  exact absurd h.initial (by decide)

/-- A function whose last line is longer than a footer. -/
def longStatus : CompactInput where
  function :=
    { id := 0, name := "f", entry := 0x40, rangeStart := 0x40, rangeEnd := 0x41
      sessionComplete := true }
  values :=
    { module :=
        { values := []
          ops := []
          blocks := [{ ops := [], terminator := { kind := .other } }]
          opcodeName := fun _ => [] }
      blocks := [0]
      isEntry := fun b => b == 0
      variableNames := fun _ => none
      returnValues := fun _ => false }
  cfg :=
    { nodes := [{ start := 0x40, irBlock := 0 }]
      edges := []
      functions := [{ entry := 0x40, nodes := [0] }] }
  taintStatus := List.replicate 120 'x'

/-- In 300 bytes the compact view is cut before its last line, and has room for the footer.  In
18 bytes the pseudo view is cut behind its signature; in a hundred it is not cut. -/
theorem views_cut :
    IsCutPrefix (longStatus.view { maxBytes := 300 }) 300 0
      (longStatus.compactLines {} { maxBytes := 300 })
      (longStatus.renderCompact {} { maxBytes := 300 }).text ∧
    IsCutPrefix bareView 18 0 (pseudoTexts bareView) (renderPseudo bareView 18 0).text ∧
    IsCutPrefix bareView 100 0 (pseudoTexts bareView) (renderPseudo bareView 100 0).text := by
  have hviews := fun maxBytes hpseudo =>
    truncated_views longStatus {} { maxBytes := 300 } bareView maxBytes 0 (by decide) hpseudo
  refine ⟨((hviews 100 (by decide)).1 rfl).mpr ?_, ((hviews 18 (by decide)).2 rfl).mpr ?_,
    ((hviews 100 (by decide)).2 rfl).mpr (uncut_of_fits (by decide) rfl)⟩
  · refine cut_of_split (take_append_drop 6 _).symm ?_ (by decide +kernel) (by decide +kernel)
    exact ⟨by decide +kernel, by decide +kernel⟩
  · refine cut_of_split (take_append_drop 1 _).symm ?_ (by decide) (by decide +kernel)
    exact ⟨by decide, by decide⟩

end Airece
