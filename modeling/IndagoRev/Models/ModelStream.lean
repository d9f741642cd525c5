import IndagoRev.Models.ModelResponse

/-!
# Streamed responses

A chat response may be split into stream events in many ways. Whatever the way,
the decoder joins the events to the response that was split, and a stream that is
cut short is refused.
-/

namespace Indago

open StdText Transactions JsonValues List

/-- A chat response with one choice and one tool call. -/
structure ChatResponse where
  content : Text
  call : StreamCall
  finish : Text
  model : Text
  provider : Text
  usage : Json

/-- The response as one JSON object. -/
def ChatResponse.json (r : ChatResponse) : Json :=
  .obj [("choices", .arr [.obj [("finish_reason", .str r.finish),
      ("message", .obj [("content", .str r.content),
        ("role", .str "assistant"), ("tool_calls", .arr [r.call.json])])]]),
    ("model", .str r.model), ("provider", .str r.provider),
    ("usage", r.usage)]

/-- What an entry of `tool_calls` carries. -/
structure CallPiece where
  id : Option Text
  name : Option Text
  arguments : Option Text

/-- What an event carries. -/
structure Piece where
  model : Option Text
  provider : Option Text
  usage : Option Json
  finish : Option Text
  content : Text
  calls : List CallPiece

/-- A JSON entry of `tool_calls` carries the piece, whatever else it has. -/
structure CallPiece.In (p : CallPiece) (t : Json) : Prop where
  index : t.get? "index" = some (.int 0)
  id : t.get? "id" = p.id.map .str
  function : (t.get? "function" = none ∧ p.name = none ∧ p.arguments = none) ∨
    ∃ f, t.get? "function" = some f ∧ f.get? "name" = p.name.map .str ∧
      f.get? "arguments" = p.arguments.map .str

/-- A JSON choice carries the piece. -/
structure Piece.InChoice (p : Piece) (c : Json) : Prop where
  object : c.isObject = true
  finish : c.get? "finish_reason" = p.finish.map .str ∨
    c.get? "finish_reason" = some .null ∧ p.finish = none
  delta : ∃ d, (c.get? "delta").getD (.obj []) = d ∧ d.isObject = true ∧
    (match d.get? "content" with
      | some (.str t) => p.content = t
      | _ => p.content = []) ∧
    ((d.get? "tool_calls" = none ∧ p.calls = []) ∨
      ∃ ts, d.get? "tool_calls" = some (.arr ts) ∧ List.Forall₂ CallPiece.In p.calls ts)

/-- A JSON event carries the piece. It may have no choice. -/
structure Piece.In (p : Piece) (e : Json) : Prop where
  error : e.get? "error" = none
  model : e.get? "model" = p.model.map .str
  provider : e.get? "provider" = p.provider.map .str
  usage : (e.get? "usage").filter Json.isObject = p.usage
  choice : (∃ c, e.get? "choices" = some (.arr [c]) ∧ p.InChoice c) ∨
    (e.get? "choices" = none ∨ e.get? "choices" = some .null ∨ e.get? "choices" = some (.arr [])) ∧
      p.finish = none ∧ p.content = [] ∧ p.calls = []

/-- The pieces of a response: texts are cut anywhere, the model is the same
wherever it is named, and of the rest the last one counts. -/
structure ChatResponse.SplitInto (r : ChatResponse) (pieces : List Piece) : Prop where
  content : pieces.flatMap (·.content) = r.content
  called : pieces.flatMap (·.calls) ≠ []
  id : (pieces.flatMap (·.calls)).flatMap (fun c => c.id.getD []) = r.call.id
  name : (pieces.flatMap (·.calls)).flatMap (fun c => c.name.getD []) = r.call.name
  arguments : (pieces.flatMap (·.calls)).flatMap (fun c => c.arguments.getD []) = r.call.arguments
  finish : (pieces.filterMap (·.finish)).getLast? = some r.finish
  model : ∀ m ∈ pieces.filterMap (·.model), m = r.model
  modelled : pieces.filterMap (·.model) ≠ []
  provider : (pieces.filterMap (·.provider)).getLast? = some r.provider
  usage : (pieces.filterMap (·.usage)).getLast?.getD .null = r.usage

/-- A line of an event stream. -/
inductive StreamLine where
  | blank
  | comment (text : Text)
  | event (spaces : Nat) (text : Text)

/-- The ends of lines. -/
def lineEnd (crlf : Bool) : Text := if crlf then "\r\n" else "\n"

def StreamLine.text : StreamLine → Text
  | .blank => []
  | .comment text => ':' :: text
  | .event spaces text => "data:" ++ List.replicate spaces ' ' ++ text

theorem StreamLine.text_blank : StreamLine.blank.text = [] := rfl

theorem StreamLine.text_comment (text : Text) : (StreamLine.comment text).text = ':' :: text := rfl

variable (spaces : Nat)

theorem StreamLine.text_event (text : Text) :
    (StreamLine.event spaces text).text = "data:" ++ List.replicate spaces ' ' ++ text := rfl

/-- A text that can stand for an event in a line: it does not begin with the
bracket of an array, and is not cut or trimmed by the line. -/
structure EventText (text : Text) : Prop where
  oneLine : '\n' ∉ text
  nonempty : text ≠ []
  start : text.head? ≠ some ' ' ∧ text.head? ≠ some '['
  last : text.getLast? ≠ some '\r'

def StreamLine.WellFormed : StreamLine → Prop
  | .blank => True
  | .comment text => '\n' ∉ text
  | .event _ text => EventText text

/-- The events of some lines. -/
def eventTexts (ls : List (StreamLine × Bool)) : List Text :=
  ls.filterMap fun l => match l.1 with
    | .event _ text => some text
    | _ => none

/-- An event stream: lines, the line that ends it, and anything after. -/
structure EventStream where
  lines : List (StreamLine × Bool)
  spaces : Nat
  rest : Option (Bool × Text)
  wellFormed : ∀ l ∈ lines, l.1.WellFormed

def linesText (ls : List (StreamLine × Bool)) : Text :=
  ls.flatMap fun l => l.1.text ++ lineEnd l.2

/-- The line that ends a stream. -/
def doneLine : Text :=
  "data:" ++ List.replicate spaces ' ' ++ "[DONE]"

variable (s : EventStream)

def EventStream.wire : Text :=
  linesText s.lines ++ doneLine s.spaces ++
    match s.rest with
    | none => []
    | some (crlf, after) => lineEnd crlf ++ after

theorem doneLine_eq : doneLine spaces = "data:" ++ List.replicate spaces ' ' ++ "[DONE]" := rfl

theorem lines_line {line rest : Text} (h : '\n' ∉ line) :
    lines (line ++ '\n' :: rest) = line :: lines rest := by
  induction line with
  | nil => simp [lines]
  | cons c line ih =>
    rw [mem_cons, not_or] at h
    simp [lines, Ne.symm h.1, ih h.2]

theorem lines_last {line : Text} (h : '\n' ∉ line) (hne : line ≠ []) : lines line = [line] := by
  induction line with
  | nil => exact absurd rfl hne
  | cons c line ih =>
    rw [mem_cons, not_or] at h
    cases line with
    | nil => simp [lines, Ne.symm h.1]
    | cons d line =>
      rw [lines, if_neg (Ne.symm h.1), ih h.2 (cons_ne_nil d line)]

/-- What a line keeps of its end. -/
def returnOf (crlf : Bool) : Text := if crlf then ['\r'] else []

theorem lineEnd_eq (crlf : Bool) : lineEnd crlf = returnOf crlf ++ ['\n'] := by
  cases crlf <;> rfl

theorem stripReturn_append {text : Text} (h : text.getLast? ≠ some '\r') (crlf : Bool) :
    stripReturn (text ++ returnOf crlf) = text := by
  cases crlf with
  | true => simp [stripReturn, returnOf]
  | false => simp [stripReturn, returnOf, h]

theorem dropSpaces (k : Nat) {text : Text} (h : text.head? ≠ some ' ') :
    (List.replicate k ' ' ++ text).dropWhile (fun c => c = ' ') = text := by
  induction k with
  | zero =>
    cases text with
    | nil => rfl
    | cons c text =>
      have hc : c ≠ ' ' := by simpa using h
      simp [hc]
  | succ k ih => simpa [replicate_succ] using ih

theorem dataOf_event {spaces : Nat} {text : Text} (h : EventText text) (crlf : Bool) :
    dataOf ((StreamLine.event spaces text).text ++ returnOf crlf) = some text := by
  have hsame : (StreamLine.event spaces text).text.getLast? = text.getLast? :=
    getLast?_append_of_ne_nil _ h.nonempty
  have hlast : (StreamLine.event spaces text).text.getLast? ≠ some '\r' :=
    fun hreturn => h.last (hsame.symm.trans hreturn)
  rw [dataOf, stripReturn_append hlast, if_pos, StreamLine.text_event, append_assoc]
  · exact congrArg some (dropSpaces spaces h.start.1)
  · rw [StreamLine.text_event, append_assoc]
    exact isPrefixOf_append _ _

theorem dataOf_comment (text : Text) : dataOf (':' :: text) = none := by
  have hhead : ∀ t : Text, stripReturn (':' :: text) = t →
      startsWith "data:" t = false := by
    intro t ht
    unfold stripReturn at ht
    split at ht
    · cases text with
      | nil => simp at *
      | cons c text =>
        subst ht
        rfl
    · subst ht
      rfl
  rw [dataOf, if_neg]
  rw [hhead _ rfl]
  exact Bool.false_ne_true

theorem dataOf_blank (crlf : Bool) : dataOf (returnOf crlf) = none := by
  cases crlf <;> rfl

theorem StreamLine.WellFormed.oneLine {l : StreamLine} (h : l.WellFormed) (crlf : Bool) :
    '\n' ∉ l.text ++ returnOf crlf := by
  have hreturn : '\n' ∉ returnOf crlf := by cases crlf <;> decide
  cases l with
  | blank => exact hreturn
  | comment text =>
    have htext : '\n' ∉ text := h
    simp [StreamLine.text_comment, htext, hreturn]
  | event spaces text =>
    have htext : EventText text := h
    simp [StreamLine.text_event, htext.oneLine, hreturn, mem_replicate]

/-- The call after one more piece. -/
def CallPiece.onto (call : Option StreamCall) (p : CallPiece) : Option StreamCall :=
  let out := call.getD ⟨[], [], []⟩
  some ⟨out.id ++ p.id.getD [], out.name ++ p.name.getD [], out.arguments ++ p.arguments.getD []⟩

/-- The parts after one more piece. -/
def StreamState.add (st : StreamState) (p : Piece) : StreamState where
  content := st.content ++ p.content
  call := p.calls.foldl CallPiece.onto st.call
  usage := p.usage.getD st.usage
  finish := p.finish.getD st.finish
  model := p.model.getD st.model
  provider := p.provider.getD st.provider
  done := st.done

theorem appendField_eq {j : Json} {key : Text} {more : Option Text}
    (h : j.get? key = more.map .str) (old : Text) :
    appendField old j key = .ok (old ++ more.getD []) := by
  rw [appendField, h]
  cases more with
  | none => simp [pure, Except.pure]
  | some t => rfl

theorem readCall_piece {p : CallPiece} {t : Json} (h : p.In t) (call : Option StreamCall) :
    readCall call t = .ok (p.onto call) := by
  have hindex := Json.at?_ok.mpr h.index
  rw [readCall, hindex]
  simp only [bind, Except.bind, appendField_eq h.id]
  rcases h.function with ⟨hnone, hname, harguments⟩ | ⟨f, hf, hname, harguments⟩
  · rw [hnone, CallPiece.onto, hname, harguments]
    simp [Json.isZero, pure, Except.pure]
  · rw [hf]
    simp only [appendField_eq hname, appendField_eq harguments]
    rfl

theorem readCalls_pieces {ps : List CallPiece} {ts : List Json} (h : List.Forall₂ CallPiece.In ps ts)
    (call : Option StreamCall) : ts.foldlM readCall call = .ok (ps.foldl CallPiece.onto call) := by
  induction h generalizing call with
  | nil => rfl
  | cons hp _ ih =>
    rw [foldlM_cons, readCall_piece hp]
    exact ih _

variable {p : Piece}

theorem declaredFinish_piece {c : Json} (h : p.InChoice c) (old : Text) :
    declaredFinish old c = .ok (p.finish.getD old) := by
  unfold declaredFinish
  rcases h.finish with hfinish | ⟨hnull, hnone⟩
  · rw [hfinish]
    cases p.finish <;> rfl
  · rw [hnull, hnone]
    rfl

theorem readChoice_piece {c : Json} (h : p.InChoice c) (st : StreamState) :
    readChoice st c = .ok { st with
      finish := p.finish.getD st.finish
      content := st.content ++ p.content
      call := p.calls.foldl CallPiece.onto st.call } := by
  obtain ⟨d, hd, hobject, hcontent, hcalls⟩ := h.delta
  have hvalue : c.value "delta" (.obj []) = .ok d := by
    rw [Json.value_eq h.object, hd]
  have hcall : ∃ calls, d.value "tool_calls" (.arr []) = .ok calls ∧
      (elements calls).foldlM readCall st.call = .ok (p.calls.foldl CallPiece.onto st.call) := by
    refine ⟨_, Json.value_eq hobject _, ?_⟩
    rcases hcalls with ⟨hnone, hempty⟩ | ⟨ts, hts, hpieces⟩
    · rw [hnone, hempty]
      rfl
    · rw [hts]
      exact readCalls_pieces hpieces st.call
  obtain ⟨calls, htool, hfold⟩ := hcall
  have htext : appendContent st.content d = st.content ++ p.content := by
    unfold appendContent
    cases hfound : d.get? "content" with
    | none =>
      rw [hfound] at hcontent
      simp only [hcontent, append_nil]
    | some v =>
      rw [hfound] at hcontent
      cases v <;> simp_all only [append_nil]
  simp only [readChoice, declaredFinish_piece h, bind, Except.bind, hvalue, htool, hfold, htext]
  rfl

/-- The piece names no other model than the pinned one. -/
def Piece.Pinned (profile : ModelProfile) (p : Piece) : Bool :=
  p.model.all (· = profile.model)

variable {e : Json}

theorem declaredModel_piece (h : p.In e) (profile : ModelProfile) (old : Text) :
    declaredModel profile old e = if p.Pinned profile then .ok (p.model.getD old)
      else .error "provider stream model identity mismatch" := by
  unfold declaredModel Piece.Pinned
  rw [h.model]
  cases p.model with
  | none => rfl
  | some m => by_cases hm : m = profile.model <;> simp [Json.asText, hm, bind, Except.bind]

theorem readChoices_piece (h : p.In e) (st : StreamState) : readChoices st e = .ok { st with
      finish := p.finish.getD st.finish
      content := st.content ++ p.content
      call := p.calls.foldl CallPiece.onto st.call } := by
  unfold readChoices
  rcases h.choice with ⟨c, hc, hchoice⟩ | ⟨hempty, hfinish, hcontent, hcalls⟩
  · rw [hc]
    exact readChoice_piece hchoice st
  rw [hfinish, hcontent, hcalls]
  rcases hempty with hnone | hnull | hnil
  · rw [hnone]
    simp
  · rw [hnull]
    simp [elements]
  · rw [hnil]
    simp [elements]

theorem readEvent_piece (h : p.In e) (profile : ModelProfile) (st : StreamState) :
    readEvent profile st e = if p.Pinned profile then .ok (st.add p)
      else .error "provider stream model identity mismatch" := by
  have herror : e.contains "error" = false := by
    rw [Json.contains, h.error]
    rfl
  have hprovider : declaredProvider st.provider e = .ok (p.provider.getD st.provider) := by
    rw [declaredProvider, h.provider]
    cases p.provider <;> rfl
  have husage : declaredUsage st.usage e = p.usage.getD st.usage := by
    rw [declaredUsage, ← h.usage]
    cases e.get? "usage" with
    | none => rfl
    | some v => cases v <;> rfl
  rw [readEvent, herror, declaredModel_piece h, hprovider, husage]
  by_cases hmodel : p.Pinned profile = true
  · rw [if_pos hmodel]
    simp only [Bool.false_eq_true, if_false, bind, Except.bind, readChoices_piece h, if_pos hmodel]
    rfl
  · simp [hmodel, bind, Except.bind]

theorem linesText_cons (l : StreamLine × Bool) (ls : List (StreamLine × Bool)) (rest : Text) :
    linesText (l :: ls) ++ rest = (l.1.text ++ returnOf l.2) ++ '\n' :: (linesText ls ++ rest) := by
  simp [linesText, lineEnd_eq]

/-- The texts of events in some lines, and the pieces that they carry. -/
def CarryIn (codec : TextCodec) (texts : List Text) (pieces : List Piece) : Prop :=
  List.Forall₂ (fun text p => ∃ e, codec.parse text = .ok e ∧ Piece.In p e) texts pieces

variable {profile : ModelProfile} {codec : TextCodec} {pieces : List Piece}

variable {ls : List (StreamLine × Bool)}

/-- The decoder goes through the lines of a stream by adding their pieces. -/
theorem readLines_text (hwf : ∀ l ∈ ls, l.1.WellFormed)
    (hcarry : CarryIn codec (eventTexts ls) pieces) (st : StreamState) (rest : Text) :
    readLines codec profile st (lines (linesText ls ++ rest)) =
      if pieces.all (Piece.Pinned profile) then
        readLines codec profile (pieces.foldl StreamState.add st) (lines rest)
      else .error "provider stream model identity mismatch" := by
  induction ls generalizing pieces st with
  | nil =>
    cases hcarry
    rfl
  | cons l ls ih =>
    have hl := hwf l mem_cons_self
    have hls : ∀ l ∈ ls, l.1.WellFormed := fun m hm => hwf m (mem_cons_of_mem l hm)
    obtain ⟨line, crlf⟩ := l
    rw [linesText_cons, lines_line (hl.oneLine crlf), readLines]
    cases line with
    | blank =>
      rw [StreamLine.text_blank, nil_append, dataOf_blank]
      exact ih hls hcarry st
    | comment text =>
      rw [StreamLine.text_comment, cons_append, dataOf_comment]
      exact ih hls hcarry st
    | event spaces text =>
      have htext : EventText text := hl
      rw [dataOf_event htext]
      simp only
      have hnotdone : text ≠ "[DONE]" := by
        intro hdone
        rw [hdone] at htext
        exact htext.start.2 rfl
      rw [if_neg hnotdone]
      cases hcarry with
      | cons hp hrest =>
        obtain ⟨e, hparse, hin⟩ := hp
        rw [hparse]
        simp only [bind, Except.bind, readEvent_piece hin]
        rename_i p ps
        by_cases hpinned : p.Pinned profile = true
        · have hall : (p :: ps).all (Piece.Pinned profile) = ps.all (Piece.Pinned profile) := by
            rw [all_cons, hpinned, Bool.true_and]
          rw [if_pos hpinned, hall]
          exact ih hls hrest _
        have hall : (p :: ps).all (Piece.Pinned profile) = false := by
          rw [all_cons, Bool.not_eq_true _ |>.mp hpinned, Bool.false_and]
        rw [if_neg hpinned, hall]
        rfl

theorem stripReturn_doneLine (crlf : Bool) :
    dataOf (doneLine spaces ++ returnOf crlf) = some "[DONE]" := by
  have hsame : (doneLine spaces).getLast? = "[DONE]".toList.getLast? :=
    getLast?_append_of_ne_nil _ (by decide)
  have hlast : (doneLine spaces).getLast? ≠ some '\r' := by
    rw [hsame]
    decide
  rw [dataOf, stripReturn_append hlast, if_pos, doneLine_eq, append_assoc]
  · exact congrArg some (dropSpaces spaces (by decide))
  · rw [doneLine_eq, append_assoc]
    exact isPrefixOf_append _ _

theorem doneLine_oneLine (crlf : Bool) : '\n' ∉ doneLine spaces ++ returnOf crlf := by
  have hreturn : '\n' ∉ returnOf crlf := by cases crlf <;> decide
  simp [doneLine_eq, hreturn, mem_replicate]

/-- The text after the lines of a stream. -/
def ending (rest : Option (Bool × Text)) : Text :=
  doneLine spaces ++
    match rest with
    | none => []
    | some (crlf, after) => lineEnd crlf ++ after

theorem EventStream.wire_eq : s.wire = linesText s.lines ++ ending s.spaces s.rest := by
  exact append_assoc _ _ _

/-- The line that ends a stream ends the reading, whatever comes after it. -/
theorem readLines_ending (codec : TextCodec) (profile : ModelProfile) (st : StreamState)
    (spaces : Nat) (rest : Option (Bool × Text)) :
    readLines codec profile st (lines (ending spaces rest)) = .ok { st with done := true } := by
  have hlines : ∃ crlf more, lines (ending spaces rest) =
      (doneLine spaces ++ returnOf crlf) :: more := by
    cases rest with
    | none =>
      refine ⟨false, [], ?_⟩
      have hone : '\n' ∉ doneLine spaces := by simpa [returnOf] using doneLine_oneLine spaces false
      have hsame : ending spaces none = doneLine spaces := append_nil _
      rw [hsame, lines_last hone (by simp [doneLine_eq])]
      simp [returnOf]
    | some after =>
      obtain ⟨crlf, after⟩ := after
      refine ⟨crlf, lines after, ?_⟩
      have happend : ending spaces (some (crlf, after)) =
          (doneLine spaces ++ returnOf crlf) ++ '\n' :: after := by
        simp [ending, lineEnd_eq]
      rw [happend, lines_line (doneLine_oneLine spaces crlf)]
  obtain ⟨crlf, more, hlines⟩ := hlines
  rw [hlines, readLines, stripReturn_doneLine]
  rfl

theorem foldl_onto (ps : List CallPiece) (call : Option StreamCall) (hne : ps ≠ []) :
    ps.foldl CallPiece.onto call = some
      ⟨(call.getD ⟨[], [], []⟩).id ++ ps.flatMap (fun c => c.id.getD []),
        (call.getD ⟨[], [], []⟩).name ++ ps.flatMap (fun c => c.name.getD []),
        (call.getD ⟨[], [], []⟩).arguments ++ ps.flatMap (fun c => c.arguments.getD [])⟩ := by
  induction ps generalizing call with
  | nil => exact absurd rfl hne
  | cons p ps ih =>
    cases ps with
    | nil => simp [CallPiece.onto]
    | cons q ps =>
      rw [foldl_cons, ih _ (cons_ne_nil q ps)]
      simp [CallPiece.onto]

theorem foldl_getD {α : Type} (f : Piece → Option α) (ps : List Piece) (old : α) :
    ps.foldl (fun old p => (f p).getD old) old = ((ps.filterMap f).getLast?).getD old := by
  induction ps generalizing old with
  | nil => rfl
  | cons p ps ih =>
    rw [foldl_cons, ih]
    cases hp : f p with
    | none => simp [hp]
    | some a =>
      rw [filterMap_cons, hp]
      cases hlast : (ps.filterMap f).getLast? <;> simp [getLast?_cons, hlast]

theorem foldl_add (ps : List Piece) (st : StreamState) : ps.foldl StreamState.add st =
      ⟨st.content ++ ps.flatMap (·.content), (ps.flatMap (·.calls)).foldl CallPiece.onto st.call,
        ps.foldl (fun old p => p.usage.getD old) st.usage,
        ps.foldl (fun old p => p.finish.getD old) st.finish,
        ps.foldl (fun old p => p.model.getD old) st.model,
        ps.foldl (fun old p => p.provider.getD old) st.provider, st.done⟩ := by
  induction ps generalizing st with
  | nil => simp
  | cons p ps ih =>
    rw [foldl_cons, ih]
    simp [StreamState.add, foldl_append]

/-- The blank lines at the start of a stream go, and nothing else. -/
theorem drop_blank_lines (ls : List (StreamLine × Bool)) (hwf : ∀ l ∈ ls, l.1.WellFormed)
    (spaces : Nat) (rest : Option (Bool × Text)) :
    ∃ ls', (linesText ls ++ ending spaces rest).dropWhile isBlank =
        linesText ls' ++ ending spaces rest ∧ (∀ l ∈ ls', l.1.WellFormed) ∧
      eventTexts ls' = eventTexts ls ∧
      ∃ c more, linesText ls' ++ ending spaces rest = c :: more ∧ c ≠ '\x7b' := by
  induction ls with
  | nil =>
    refine ⟨[], ?_, nofun, rfl, 'd', _, rfl, by decide⟩
    rfl
  | cons l ls ih =>
    have hls : ∀ l ∈ ls, l.1.WellFormed := fun m hm => hwf m (mem_cons_of_mem l hm)
    obtain ⟨line, crlf⟩ := l
    cases line with
    | blank =>
      obtain ⟨ls', hdrop, hwf', htexts, hstart⟩ := ih hls
      refine ⟨ls', ?_, hwf', htexts, hstart⟩
      rw [linesText_cons, ← hdrop]
      cases crlf <;> rfl
    | comment text =>
      exact ⟨_, rfl, hwf, rfl, ':', _, rfl, by decide⟩
    | event n text =>
      exact ⟨_, rfl, hwf, rfl, 'd', _, rfl, by decide⟩

variable {r : ChatResponse}

theorem ChatResponse.SplitInto.pinned (h : r.SplitInto pieces) (profile : ModelProfile) :
    pieces.all (Piece.Pinned profile) = true ↔ r.model = profile.model := by
  constructor
  · intro hall
    obtain ⟨m, hm⟩ := exists_mem_of_ne_nil _ h.modelled
    obtain ⟨p, hp, hpm⟩ := mem_filterMap.mp hm
    have hpinned := all_eq_true.mp hall p hp
    rw [Piece.Pinned, hpm] at hpinned
    rw [← h.model m hm]
    simpa using hpinned
  · intro hmodel
    rw [all_eq_true]
    intro p hp
    cases hpm : p.model with
    | none => simp [Piece.Pinned, hpm]
    | some m =>
      have hm := h.model m (mem_filterMap.mpr ⟨p, hp, hpm⟩)
      simp [Piece.Pinned, hpm, hm, hmodel]

/-- The pieces of a response add up to it. -/
theorem ChatResponse.SplitInto.joined
    (h : r.SplitInto pieces) : pieces.foldl StreamState.add StreamState.start =
      ⟨r.content, some r.call, r.usage, r.finish, r.model, r.provider, false⟩ := by
  have hmodel : (pieces.filterMap (·.model)).getLast? = some r.model := by
    rw [getLast?_eq_some_getLast h.modelled]
    exact congrArg some (h.model _ (getLast_mem h.modelled))
  rw [foldl_add, foldl_onto _ _ h.called, foldl_getD, foldl_getD, foldl_getD, foldl_getD, h.finish,
    h.provider, hmodel]
  simp only [StreamState.start, h.content, h.id, h.name, h.arguments, h.usage, nil_append,
    Option.getD_none, Option.getD_some]

theorem readStream_split (profile : ModelProfile) (hwf : ∀ l ∈ ls, l.1.WellFormed)
    (hcarry : CarryIn codec (eventTexts ls) pieces) (hsplit : r.SplitInto pieces) (spaces : Nat)
    (rest : Option (Bool × Text)) : readStream codec profile (linesText ls ++ ending spaces rest) =
      if r.model = profile.model then
        if r.finish = [] then .error "incomplete provider stream; no decision executed"
        else .ok r.json else .error "provider stream model identity mismatch" := by
  rw [readStream, readLines_text hwf hcarry]
  by_cases hmodel : r.model = profile.model
  · rw [if_pos hmodel, if_pos ((hsplit.pinned profile).mpr hmodel), readLines_ending, hsplit.joined]
    cases hfinish : r.finish with
    | nil => rfl
    | cons c finish =>
      simp [bind, Except.bind, pure, Except.pure, StreamState.response, ChatResponse.json,
        StreamState.message, hfinish]
  · rw [if_neg hmodel, if_neg (fun h => hmodel ((hsplit.pinned profile).mp h))]
    rfl

theorem wire_ne_nil : s.wire ≠ [] := by
  rw [s.wire_eq]
  simp [ending, doneLine_eq]

/-- A stream within the budget is joined and decoded like the response. -/
theorem decode_stream {s : EventStream} (hsplit : r.SplitInto pieces)
    (hcarry : CarryIn codec (eventTexts s.lines) pieces) (hbudget : s.wire.length ≤ 1048576) :
    decodeModelResponse codec profile s.wire = if r.model = profile.model then
        if r.finish = [] then .error "incomplete provider stream; no decision executed"
        else (decodeJoined codec profile r.json).map (fun d => ⟨d, codec.sha256 s.wire⟩)
      else .error "provider stream model identity mismatch" := by
  obtain ⟨ls, hdrop, hwf, htexts, c, more, hstart, hc⟩ :=
    drop_blank_lines s.lines s.wellFormed s.spaces s.rest
  have hread := readStream_split profile hwf (by rwa [htexts]) hsplit s.spaces s.rest
  have hnonempty : ¬ (s.wire.isEmpty = true ∨ s.wire.length > 1048576) := by
    rintro (hempty | hlong)
    · exact wire_ne_nil s (isEmpty_iff.mp hempty)
    · omega
  rw [decodeModelResponse, if_neg hnonempty]
  rw [s.wire_eq, hdrop, hstart]
  rw [hstart] at hread
  simp only [if_neg hc, hread]
  by_cases hmodel : r.model = profile.model
  · rw [if_pos hmodel, if_pos hmodel]
    by_cases hfinish : r.finish = []
    · rw [if_pos hfinish, if_pos hfinish]
      rfl
    · rw [if_neg hfinish, if_neg hfinish]
      rfl
  · rw [if_neg hmodel, if_neg hmodel]
    rfl

/-- A text of the response as one object, within the budget. -/
structure ChatResponse.PlainText (r : ChatResponse) (codec : TextCodec) (plain : Text) : Prop where
  start : (plain.dropWhile isBlank).head? = some '\x7b'
  parsed : codec.parse (plain.dropWhile isBlank) = .ok r.json
  budget : plain.length ≤ 1048576

theorem decode_plain {plain : Text}
    (h : r.PlainText codec plain) : decodeModelResponse codec profile plain =
      (decodeJoined codec profile r.json).map (fun d => ⟨d, codec.sha256 plain⟩) := by
  cases hplain : plain.dropWhile isBlank with
  | nil =>
    have hstart := h.start
    rw [hplain] at hstart
    cases hstart
  | cons c rest =>
    have hstart := h.start
    have hparsed := h.parsed
    rw [hplain] at hstart hparsed
    have hc : c = '\x7b' := by simpa using hstart
    have hnonempty : ¬ (plain.isEmpty = true ∨ plain.length > 1048576) := by
      rintro (hempty | hlong)
      · rw [isEmpty_iff.mp hempty] at hplain
        cases hplain
      · exact absurd h.budget (Nat.not_le.mpr hlong)
    rw [decodeModelResponse, if_neg hnonempty, hplain]
    simp only [hc, if_true]
    rw [hc] at hparsed
    rw [hparsed]
    rfl

/-- A response of another model, or without a reason to finish, is refused. -/
theorem decodeJoined_refuses (codec : TextCodec) (profile : ModelProfile) (r : ChatResponse)
    (h : r.model ≠ profile.model ∨ r.finish = []) :
    ∃ e, decodeJoined codec profile r.json = .error e := by
  have herror : r.json.contains "error" = false := rfl
  have hvalue : r.json.valueText "model" [] = .ok r.model := rfl
  have hchoices : r.json.at? "choices" = .ok (.arr [.obj
      [("finish_reason", .str r.finish), ("message",
        .obj [("content", .str r.content), ("role", .str "assistant"),
          ("tool_calls", .arr [r.call.json])])]]) := rfl
  by_cases hmodel : r.model = profile.model
  · have hfinish : r.finish = [] := h.resolve_left (fun hne => hne hmodel)
    refine ⟨"truncated or blocked model generation; no decision executed", ?_⟩
    unfold decodeJoined
    rw [herror, hvalue]
    simp only [bind, Except.bind, hmodel, hchoices]
    rw [hfinish, if_neg Bool.false_ne_true, if_neg (fun hne => hne rfl)]
    rfl
  · refine ⟨"provider model identity mismatch; no model fallback allowed", ?_⟩
    unfold decodeJoined
    rw [herror, hvalue]
    simp [bind, Except.bind, hmodel, throw, throwThe, MonadExceptOf.throw]

variable {st st' : StreamState}

theorem readChoice_done {c : Json} (h : readChoice st c = .ok st') : st'.done = st.done := by
  simp only [readChoice, except_bind_ok] at h
  obtain ⟨_, _, _, _, _, _, _, _, h⟩ := h
  cases h
  rfl

theorem readEvent_done (h : readEvent profile st e = .ok st') : st'.done = st.done := by
  unfold readEvent at h
  split at h
  · cases h
  simp only [except_bind_ok] at h
  obtain ⟨model, _, provider, _, h⟩ := h
  unfold readChoices at h
  split at h
  · cases h
    rfl
  split at h
  · cases h
    rfl
  split at h
  · cases h
  · split at h
    · exact (readChoice_done h :)
    · cases h

theorem readLines_done
    {ls : List Text} (h : readLines codec profile st ls = .ok st') (hopen : st.done = false)
    (hdone : st'.done = true) : ∃ l ∈ ls, dataOf l = some "[DONE]".toList := by
  induction ls generalizing st with
  | nil =>
    cases h
    rw [hopen] at hdone
    cases hdone
  | cons line rest ih =>
    unfold readLines at h
    cases hdata : dataOf line with
    | none =>
      rw [hdata] at h
      obtain ⟨l, hl, hmark⟩ := ih h hopen
      exact ⟨l, mem_cons_of_mem line hl, hmark⟩
    | some payload =>
      rw [hdata] at h
      by_cases hmark : payload = "[DONE]".toList
      · exact ⟨line, mem_cons_self, by rw [hdata, hmark]⟩
      simp only [if_neg hmark, except_bind_ok] at h
      obtain ⟨e, _, next, hnext, h⟩ := h
      obtain ⟨l, hl, hlast⟩ := ih h ((readEvent_done hnext).trans hopen)
      exact ⟨l, mem_cons_of_mem line hl, hlast⟩

theorem readStream_cut (codec : TextCodec) (profile : ModelProfile) {cut : Text}
    (h : ∀ l ∈ lines cut, dataOf l ≠ some "[DONE]") :
    ∃ e, readStream codec profile cut = .error e := by
  cases hread : readLines codec profile .start (lines cut) with
  | error e => exact ⟨e, by simp [readStream, hread, bind, Except.bind]⟩
  | ok st =>
    have hdone : st.done = false := by
      rw [← Bool.not_eq_true]
      intro hdone
      obtain ⟨l, hl, hline⟩ := readLines_done hread rfl hdone
      exact h l hl hline
    exact ⟨"incomplete provider stream; no decision executed",
      by simp [readStream, hread, hdone, bind, Except.bind, throw, throwThe,
        MonadExceptOf.throw]⟩

theorem dataOf_done {line : Text} (h : dataOf line = some "[DONE]".toList) :
    ∃ k rest, line = "data:".toList ++ (List.replicate k ' ' ++ ("[DONE]".toList ++ rest)) := by
  unfold dataOf at h
  split at h
  · next hstart =>
      obtain ⟨payload, hpayload⟩ := isPrefixOf_iff_prefix.mp hstart
      have hstrip : ∃ rest, line = stripReturn line ++ rest := by
        unfold stripReturn
        split
        · exact ⟨_, (List.dropLast_prefix line).choose_spec.symm⟩
        · exact ⟨[], (append_nil line).symm⟩
      obtain ⟨rest, hrest⟩ := hstrip
      have hdrop : (stripReturn line).drop 5 = payload := by
        rw [← hpayload]
        rfl
      rw [hdrop, Option.some.injEq] at h
      have hspaces : payload.takeWhile (fun c => c = ' ') =
          List.replicate (payload.takeWhile (fun c => c = ' ')).length ' ' := by
        rw [eq_replicate_iff]
        refine ⟨rfl, fun c hc => ?_⟩
        simpa using all_eq_true.mp all_takeWhile c hc
      refine ⟨(payload.takeWhile (fun c => c = ' ')).length, rest, ?_⟩
      rw [← hspaces, ← h, ← append_assoc, ← append_assoc, append_assoc _ _ (payload.dropWhile _),
        takeWhile_append_dropWhile, hpayload]
      exact hrest
  · cases h

theorem mark_head {more : Text} : ("[DONE]" ++ more).head? ≠ some ' ' := by
  intro h
  cases h

theorem StreamLine.WellFormed.part {l : StreamLine} (h : l.WellFormed) {crlf : Bool}
    {part more : Text} (hpart : part ++ more = l.text ++ returnOf crlf) :
    dataOf part ≠ some "[DONE]" := by
  intro hdone
  obtain ⟨k, rest, rfl⟩ := dataOf_done hdone
  cases l with
  | blank => cases crlf <;> simp [StreamLine.text_blank, returnOf] at hpart
  | comment text => simp [StreamLine.text_comment] at hpart
  | event spaces text =>
    have htext : EventText text := h
    obtain ⟨c, body, rfl⟩ := exists_cons_of_ne_nil htext.nonempty
    have hspace : c ≠ ' ' := by simpa using htext.start.1
    have hbracket : c ≠ '[' := by simpa using htext.start.2
    simp only [StreamLine.text_event, append_assoc, append_cancel_left_eq] at hpart
    have hdrop := congrArg (List.dropWhile (fun c => c = ' ')) hpart
    rw [dropSpaces k mark_head, dropSpaces spaces (by simpa using hspace)] at hdrop
    have hhead := congrArg List.head? hdrop
    exact hbracket (Option.some.inj hhead).symm

theorem doneLine_part {spaces : Nat} {part more : Text} (hmore : more ≠ [])
    (hpart : part ++ more = doneLine spaces) : dataOf part ≠ some "[DONE]" := by
  intro hdone
  obtain ⟨k, rest, rfl⟩ := dataOf_done hdone
  simp only [doneLine_eq, append_assoc, append_cancel_left_eq] at hpart
  have hdrop := congrArg (List.dropWhile (fun c => c = ' ')) hpart
  rw [dropSpaces k mark_head, dropSpaces spaces (by decide)] at hdrop
  have hnil : rest ++ more = [] := by simpa using hdrop
  exact hmore (append_eq_nil_iff.mp hnil).2

theorem mem_lines_of_oneLine {line l : Text} (h : '\n' ∉ line) (hl : l ∈ lines line) : l = line := by
  cases line with
  | nil => cases hl
  | cons c line =>
    rw [lines_last h (cons_ne_nil c line)] at hl
    exact mem_singleton.mp hl

theorem cut_lines (hwf : ∀ l ∈ ls, l.1.WellFormed) {spaces : Nat}
    {cut more : Text} (hmore : more ≠ []) (hcut : cut ++ more = linesText ls ++ doneLine spaces) :
    ∀ l ∈ lines cut, dataOf l ≠ some "[DONE]" := by
  induction ls generalizing cut with
  | nil =>
    have hcut : cut ++ more = doneLine spaces := hcut
    have hone : '\n' ∉ cut := by
      intro hmem
      have hline := doneLine_oneLine spaces false
      exact hline (by
        rw [← hcut]
        simp [hmem])
    intro l hl
    rw [mem_lines_of_oneLine hone hl]
    exact doneLine_part hmore hcut
  | cons l ls ih =>
    have hl := hwf l mem_cons_self
    rw [linesText_cons, append_eq_append_iff] at hcut
    have hone := hl.oneLine l.2
    rcases hcut with ⟨part, hpart, -⟩ | ⟨part, hpart, hrest⟩
    · intro line hline
      have hcutone : '\n' ∉ cut := by
        intro hmem
        exact hone (by rw [hpart]; simp [hmem])
      rw [mem_lines_of_oneLine hcutone hline]
      exact hl.part hpart.symm
    cases part with
    | nil =>
      intro line hline
      rw [hpart, append_nil] at hline
      rw [mem_lines_of_oneLine hone hline]
      exact hl.part (append_nil _)
    | cons c part =>
      simp only [cons_append, List.cons.injEq] at hrest
      obtain ⟨rfl, hrest⟩ := hrest
      rw [hpart, lines_line hone]
      intro line hline
      rcases mem_cons.mp hline with rfl | hline
      · exact hl.part (append_nil _)
      · exact ih (fun m hm => hwf m (mem_cons_of_mem l hm)) hrest.symm line hline

theorem decode_cut {cut more : Text}
    (hmore : more ≠ []) (hcut : cut ++ more = linesText s.lines ++ doneLine s.spaces) :
    ∃ e, decodeModelResponse codec profile cut = .error e := by
  unfold decodeModelResponse
  split
  · exact ⟨_, rfl⟩
  cases hdrop : cut.dropWhile isBlank with
  | nil => exact ⟨_, rfl⟩
  | cons c rest =>
    obtain ⟨ls, hlines, hwf, -, first, tail, hstart, hfirst⟩ :=
      drop_blank_lines s.lines s.wellFormed s.spaces none
    have hending : ending s.spaces none = doneLine s.spaces := append_nil _
    rw [hending] at hlines hstart
    have htrimmed : (c :: rest) ++ more = linesText ls ++ doneLine s.spaces := by
      rw [← hlines, ← hcut, dropWhile_append, hdrop]
      rfl
    have hc : c ≠ '\x7b' := by
      rw [hstart, cons_append] at htrimmed
      rw [(List.cons.inj htrimmed).1]
      exact hfirst
    obtain ⟨e, he⟩ := readStream_cut codec profile (cut_lines hwf hmore htrimmed)
    exact ⟨e, by simp only [if_neg hc, he]; rfl⟩

theorem decode_unfinished (hcarry : CarryIn codec (eventTexts s.lines) pieces)
    (hfinish : ∀ p ∈ pieces, p.finish = none) :
    ∃ e, decodeModelResponse codec profile s.wire = .error e := by
  obtain ⟨ls, hdrop, hwf, htexts, c, more, hstart, hc⟩ :=
    drop_blank_lines s.lines s.wellFormed s.spaces s.rest
  have hread : ∃ e, readStream codec profile (c :: more) = .error e := by
    rw [← hstart, readStream, readLines_text hwf (by rwa [htexts])]
    split
    · rw [readLines_ending, foldl_add, foldl_getD (f := fun p => p.finish)]
      have hnone : pieces.filterMap (fun p => p.finish) = [] := by
        rw [filterMap_eq_nil_iff]
        exact hfinish
      rw [hnone]
      exact ⟨_, rfl⟩
    · exact ⟨_, rfl⟩
  obtain ⟨e, he⟩ := hread
  unfold decodeModelResponse
  split
  · exact ⟨_, rfl⟩
  · rw [s.wire_eq, hdrop, hstart]
    exact ⟨e, by simp only [if_neg hc, he]; rfl⟩

/-- What a decoder decides, without the digest of the text it read. -/
def decided (answer : Access ModelAnswer) : Access DecodedResponse :=
  answer.map ModelAnswer.toDecodedResponse

/-- How a stream of a response compares with its plain text. -/
structure StreamAgreement (codec : TextCodec) (profile : ModelProfile) (r : ChatResponse)
    (s : EventStream) (plain : Text) : Prop where
  agree : r.model = profile.model → r.finish ≠ [] →
    decided (decodeModelResponse codec profile s.wire) =
      decided (decodeModelResponse codec profile plain)
  refuse : r.model ≠ profile.model ∨ r.finish = [] →
    (∃ e, decodeModelResponse codec profile s.wire = .error e) ∧
      ∃ e, decodeModelResponse codec profile plain = .error e
  cut : ∀ cut more, more ≠ [] → cut ++ more = linesText s.lines ++ doneLine s.spaces →
    ∃ e, decodeModelResponse codec profile cut = .error e
  unfinished : ∀ (s' : EventStream) (pieces : List Piece),
    CarryIn codec (eventTexts s'.lines) pieces → (∀ p ∈ pieces, p.finish = none) →
    ∃ e, decodeModelResponse codec profile s'.wire = .error e

/-- **Streams.**  Events decode as the response that was split, and a cut stream is refused. -/
theorem stream_agrees (codec : TextCodec) (profile : ModelProfile) (r : ChatResponse)
    (s : EventStream) (pieces : List Piece) (plain : Text) (hsplit : r.SplitInto pieces)
    (hcarry : CarryIn codec (eventTexts s.lines) pieces) (hbudget : s.wire.length ≤ 1048576)
    (hplain : r.PlainText codec plain) : StreamAgreement codec profile r s plain where
  agree := by
    intro hmodel hfinish
    rw [decode_stream hsplit hcarry hbudget, decode_plain hplain, if_pos hmodel, if_neg hfinish]
    cases decodeJoined codec profile r.json <;> rfl
  refuse := by
    intro hrefused
    constructor
    · rw [decode_stream hsplit hcarry hbudget]
      by_cases hmodel : r.model = profile.model
      · rw [if_pos hmodel, if_pos (hrefused.resolve_left (fun hne => hne hmodel))]
        exact ⟨_, rfl⟩
      · rw [if_neg hmodel]
        exact ⟨_, rfl⟩
    · obtain ⟨e, he⟩ := decodeJoined_refuses codec profile r hrefused
      exact ⟨e, by rw [decode_plain hplain, he]; rfl⟩
  cut := fun _ _ hmore hcut => decode_cut s hmore hcut
  unfinished := fun s' _ hcarry hfinish => decode_unfinished s' hcarry hfinish

def smallDecision : Json := .obj [("kind", .str "finish"), ("payload", .obj [])]

def smallResponse : ChatResponse :=
  ⟨[], ⟨"c", "investigate", smallDecision.dump⟩, "tool_calls", "m", "q", .null⟩

/-- An event with one delta of the call. -/
def smallDelta (call : List (Text × Json)) (choice : List (Text × Json))
    (event : List (Text × Json)) : Json :=
  .obj (("choices", .arr [.obj (("delta",
    .obj [("tool_calls", .arr [.obj call])]) :: choice)]) :: event)

def firstEvent : Json :=
  smallDelta [("function", .obj [("arguments", .str (smallDecision.dump.take 9)),
      ("name", .str "investigate")]), ("id", .str "c"),
    ("index", .int 0)] [] [("model", .str "m"), ("provider", .str "q")]

def lastEvent : Json :=
  smallDelta [("function", .obj [("arguments", .str (smallDecision.dump.drop 9))]),
    ("index", .int 0)] [("finish_reason", .str "tool_calls")] []

def smallPieces : List Piece :=
  [⟨some "m", some "q", none, none, [],
      [⟨some "c", some "investigate", some (smallDecision.dump.take 9)⟩]⟩,
    ⟨none, none, none, some "tool_calls", [], [⟨none, none, some (smallDecision.dump.drop 9)⟩]⟩]

/-- The texts of the few values at hand. -/
def smallCodec : TextCodec where
  parse t :=
    if t = firstEvent.dump then .ok firstEvent
    else if t = lastEvent.dump then .ok lastEvent
    else if t = smallResponse.json.dump then .ok smallResponse.json
    else if t = smallDecision.dump then .ok smallDecision
    else .error "parse_error.101"
  dump := Json.dump
  sha256 _ := []

def smallProfile (model : Text) : ModelProfile := ⟨model, "local", "tools", "object", false⟩

theorem firstEvent_text : EventText firstEvent.dump := by
  refine ⟨?_, ?_, ?_, ?_⟩ <;> decide

theorem lastEvent_text : EventText lastEvent.dump := by
  refine ⟨?_, ?_, ?_, ?_⟩ <;> decide

/-- The response in two events after a comment. -/
def smallStream (comment : Text) (h : '\n' ∉ comment) : EventStream where
  lines := [(.comment comment, false), (.event 1 firstEvent.dump, true), (.blank, true),
    (.event 1 lastEvent.dump, true)]
  spaces := 1
  rest := none
  wellFormed := by
    intro l hl
    simp only [mem_cons, not_mem_nil, or_false] at hl
    rcases hl with rfl | rfl | rfl | rfl
    · exact h
    · exact firstEvent_text
    · exact trivial
    · exact lastEvent_text

theorem smallResponse_split : smallResponse.SplitInto smallPieces where
  content := rfl
  called := by simp [smallPieces]
  id := rfl
  name := rfl
  arguments := by
    simp only [smallPieces, flatMap_cons, flatMap_nil, append_nil, singleton_append]
    exact take_append_drop 9 smallDecision.dump
  finish := rfl
  model := by simp [smallPieces, smallResponse]
  modelled := by simp [smallPieces]
  provider := rfl
  usage := rfl

theorem smallCodec_first : smallCodec.parse firstEvent.dump = .ok firstEvent := by
  simp only [smallCodec, if_true]

theorem smallCodec_last : smallCodec.parse lastEvent.dump = .ok lastEvent := by
  have hfirst : lastEvent.dump ≠ firstEvent.dump := by decide
  simp [smallCodec, hfirst]

theorem smallCodec_plain : smallCodec.parse smallResponse.json.dump = .ok smallResponse.json := by
  have hfirst : smallResponse.json.dump ≠ firstEvent.dump := by decide
  have hlast : smallResponse.json.dump ≠ lastEvent.dump := by decide
  simp [smallCodec, hfirst, hlast]

theorem smallStream_carries (comment : Text) (h : '\n' ∉ comment) :
    CarryIn smallCodec (eventTexts (smallStream comment h).lines) smallPieces := by
  refine .cons ⟨firstEvent, smallCodec_first, ?_⟩ (.cons ⟨lastEvent, smallCodec_last, ?_⟩ .nil)
  · refine ⟨rfl, rfl, rfl, rfl, Or.inl ⟨_, rfl, rfl, Or.inl rfl, _, rfl, rfl, rfl, Or.inr ⟨_, rfl, ?_⟩⟩⟩
    exact .cons ⟨rfl, rfl, Or.inr ⟨_, rfl, rfl, rfl⟩⟩ .nil
  · refine ⟨rfl, rfl, rfl, rfl, Or.inl ⟨_, rfl, rfl, Or.inl rfl, _, rfl, rfl, rfl, Or.inr ⟨_, rfl, ?_⟩⟩⟩
    exact .cons ⟨rfl, rfl, Or.inr ⟨_, rfl, rfl, rfl⟩⟩ .nil

theorem smallResponse_plain : smallResponse.PlainText smallCodec smallResponse.json.dump where
  start := rfl
  parsed := smallCodec_plain
  budget := by set_option maxRecDepth 100000 in decide

theorem stream_agrees_small : StreamAgreement smallCodec (smallProfile "m") smallResponse
      (smallStream "keep-alive" (by decide)) smallResponse.json.dump :=
  stream_agrees smallCodec (smallProfile "m") smallResponse
    (smallStream "keep-alive" (by decide)) smallPieces smallResponse.json.dump
    smallResponse_split (smallStream_carries _ _)
    (by set_option maxRecDepth 100000 in decide) smallResponse_plain

theorem no_newline (n : Nat) : '\n' ∉ List.replicate n 'x' := by
  intro h
  exact absurd (eq_of_mem_replicate h) (by decide)

theorem comment_length (n : Nat) :
    n < (smallStream (List.replicate n 'x') (no_newline n)).wire.length := by
  simp only [EventStream.wire, smallStream, linesText, flatMap_cons, StreamLine.text_comment,
    length_append, length_cons, length_replicate]
  omega

theorem decode_long (codec : TextCodec) (profile : ModelProfile) {wire : Text}
    (h : wire.length > 1048576) :
    decodeModelResponse codec profile wire = .error "model response byte budget exceeded" := by
  rw [decodeModelResponse, if_pos (Or.inr h)]

/-- The text of a refusal. -/
def refusal {α : Type} : Access α → Option String
  | .error e => some e
  | .ok _ => none

/-- A long comment makes the stream of an accepted response too long, and a stream
of another model is refused with a text of its own. -/
theorem stream_differs_from_plain :
    (refusal (decodeModelResponse smallCodec (smallProfile "m") smallResponse.json.dump) = none ∧
      refusal (decodeModelResponse smallCodec (smallProfile "m")
        (smallStream (List.replicate 1048576 'x') (no_newline 1048576)).wire) =
          some "model response byte budget exceeded") ∧
    (refusal (decodeModelResponse smallCodec (smallProfile "n") smallResponse.json.dump) =
          some "provider model identity mismatch; no model fallback allowed" ∧
      refusal (decodeModelResponse smallCodec (smallProfile "n")
        (smallStream [] not_mem_nil).wire) = some "provider stream model identity mismatch") := by
  refine ⟨⟨?_, ?_⟩, ⟨?_, ?_⟩⟩
  · set_option maxRecDepth 100000 in decide
  · exact congrArg refusal
      (decode_long smallCodec (smallProfile "m") (comment_length 1048576))
  · set_option maxRecDepth 100000 in decide
  · set_option maxRecDepth 100000 in decide

end Indago
