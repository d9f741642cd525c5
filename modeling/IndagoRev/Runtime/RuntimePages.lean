import IndagoRev.Models.InvestigationState

/-!
# Pages of the evidence of a session

Observations, identities and network events are shown in pages, each view with its own
byte budget.  A record that alone is longer than the budget of its view stops the first two
for ever; an event of the network view is shortened instead.  Network events can also be
followed by their sequence numbers, past records that are too long to be read.
-/

namespace Indago.RuntimePages

open StdText JsonValues JsonValues.Json StaticIndex Cursors Investigation List

/-- A call that an agent has reported: its function, the id of its socket where the data have
an object for it, and the fields of the data and of their payload. -/
structure AgentCall where
  api : Text
  socketId : Option Text
  data : List (Text × Json)
  payload : List (Text × Json)

/-- A row of the observations, with what is read from the text of its record. -/
structure ObservationRow where
  sequence : Nat
  id : Text
  kind : Text
  anchor : Text
  sha : Text
  record : Text
  backend : Text
  call : Option AgentCall
  short : id.length ≤ 128 ∧ sha.length ≤ 128

/-- The observations of a session by their sequence numbers, whose digests are right. -/
structure SessionRows (sha256 : Text → Text) where
  rows : List ObservationRow
  ordered : rows.Pairwise (fun a b => a.sequence < b.sequence)
  bounded : ∀ r ∈ rows, r.sequence ≤ 9223372036854775807
  sealed : ∀ r ∈ rows, r.sha = sha256 r.record

/-- A row of the epochs or of the lifetimes. -/
structure IdentityRow where
  id : Text
  kind : Text
  record : Text

/-- `std::clamp(n, 1, most)`. -/
def clamped (most n : Nat) : Nat := min (max n 1) most

section Weighed

variable {ρ : Type} (weight : ρ → Nat) (limit budget : Nat)

/-- Whether rows are no more than a page may show. -/
def fits (rows : List ρ) : Bool :=
  decide (rows.length ≤ limit) && decide ((rows.map weight).sum ≤ budget)

/-- A page over one row more than it can show. -/
def weighedPage (rows : List ρ) (offset : Nat) : Access (List ρ × Option Nat) :=
  let fetched := (rows.drop offset).take (limit + 1)
  let out := pack (fits weight limit budget) [] fetched
  .ok (out, if out.length < fetched.length then some (offset + out.length) else none)

variable {weight limit budget} {rows : List ρ}

theorem fits_iff : fits weight limit budget rows = true ↔
    rows.length ≤ limit ∧ (rows.map weight).sum ≤ budget := by
  unfold fits
  rw [Bool.and_eq_true, decide_eq_true_iff, decide_eq_true_iff]

theorem fits_append {a b : List ρ} (h : fits weight limit budget (a ++ b) = true) :
    fits weight limit budget a = true := by
  rw [fits_iff, map_append, sum_append, length_append] at h
  exact fits_iff.mpr ⟨by omega, by omega⟩

theorem fits_member {r : ρ} (h : fits weight limit budget rows = true)
    (hr : r ∈ rows) : fits weight limit budget [r] = true := by
  obtain ⟨before, after, rfl⟩ := append_of_mem hr
  rw [fits_iff, map_append, sum_append, length_append, map_cons,
    sum_cons, length_cons] at h
  exact fits_iff.mpr ⟨by rw [length_singleton]; omega, by simp; omega⟩

theorem pack_take_limit (rest : List ρ) {shown : List ρ} {n : Nat} (h : limit < shown.length + n) :
    pack (fits weight limit budget) shown (rest.take n) =
      pack (fits weight limit budget) shown rest := by
  induction rest generalizing shown n with
  | nil => rw [take_nil]
  | cons r rest ih =>
    by_cases hr : fits weight limit budget (shown ++ [r]) = true
    · have hlength := (fits_iff.mp hr).1
      rw [length_append, length_singleton] at hlength
      obtain ⟨m, rfl⟩ : ∃ m, n = m + 1 := ⟨n - 1, by omega⟩
      rw [take_succ_cons, pack, pack, if_pos hr, if_pos hr]
      exact ih (by rw [length_append, length_singleton]; omega)
    · cases n with
      | zero => rw [take_zero, pack, pack, if_neg hr]
      | succ n => rw [take_succ_cons, pack, pack, if_neg hr, if_neg hr]

theorem weighedPage_eq (rows : List ρ) (offset : Nat) :
    weighedPage weight limit budget rows offset =
      .ok (pack (fits weight limit budget) [] (rows.drop offset),
        if offset + (pack (fits weight limit budget) [] (rows.drop offset)).length < rows.length
        then some (offset + (pack (fits weight limit budget) [] (rows.drop offset)).length)
        else none) := by
  have hnil : fits weight limit budget [] = true := fits_iff.mpr ⟨Nat.zero_le _, Nat.zero_le _⟩
  obtain ⟨n, hn, hpack, hcount, hroom, _⟩ := pack_take hnil rows offset
  have hlimit := (fits_iff.mp hroom).1
  rw [← hpack, hcount] at hlimit
  unfold weighedPage
  dsimp only
  rw [pack_take_limit _ (by rw [length_nil]; omega), length_take, length_drop,
    hcount]
  have hsame : n < min (limit + 1) (rows.length - offset) ↔ offset + n < rows.length := by omega
  simp only [hsame]

/-- Where pages are refused beyond an offset, they show all rows in order exactly when every
row alone is within the budget and no page begins beyond that offset. -/
theorem weighed_visit_iff (most : Nat) (hlimit : 1 ≤ limit)
    {page : Nat → Access (List ρ × Option Nat)} (hpage : ∀ offset ≤ rows.length,
      (offset ≤ most → page offset = weighedPage weight limit budget rows offset) ∧
      (most < offset → ∃ e, page offset = .error e)) :
    Visit page 0 rows ↔ (∀ r ∈ rows, weight r ≤ budget) ∧
      ∀ offset, Begins (fits weight limit budget) rows offset → offset ≤ most := by
  have hpacks : Packs (fits weight limit budget) most rows page := by
    intro offset hle
    obtain ⟨hshown, hrefused⟩ := hpage offset hle
    exact ⟨fun hmost => (hshown hmost).trans (weighedPage_eq rows offset), hrefused⟩
  rw [visit_packed_iff (fits_iff.mpr ⟨Nat.zero_le _, Nat.zero_le _⟩) fits_append fits_member hpacks]
  have hsingle : ∀ r : ρ, fits weight limit budget [r] = true ↔ weight r ≤ budget := by
    intro r
    rw [fits_iff, map_singleton, sum_singleton, length_singleton]
    exact ⟨fun h => h.2, fun h => ⟨hlimit, h⟩⟩
  simp only [hsingle]

theorem weighed_visit_all (hlimit : 1 ≤ limit) :
    Visit (weighedPage weight limit budget rows) 0 rows ↔ ∀ r ∈ rows, weight r ≤ budget := by
  rw [weighed_visit_iff rows.length hlimit
    (fun offset hle => ⟨fun _ => rfl, fun hover => absurd hover (by omega)⟩)]
  refine and_iff_left (fun offset h => ?_)
  cases h with
  | first => exact Nat.zero_le _
  | next _ _ _ hleft => exact Nat.le_of_lt hleft

end Weighed

/-- The filters of a request, where an empty one matches everything. -/
def matchesText (filter t : Text) : Bool := filter.isEmpty || t = filter

variable {sha256 : Text → Text} (session : SessionRows sha256) (id anchor kind : Text)

def matchingObservations : List ObservationRow :=
  session.rows.filter (fun r =>
    matchesText id r.id && matchesText anchor r.anchor && matchesText kind r.kind)

/-- `observations`, with the rows that it shows. -/
def observations (requested offset : Nat) : Access (List ObservationRow × Option Nat) :=
  weighedPage (fun r => utf8Length r.record) (clamped 1000 requested) 2097152
    (matchingObservations session id anchor kind) offset

def identityKinds : List Text :=
  ["epoch", "lifetime", "process", "module", "thread", "socket", "api_call"].map String.toList

variable (epochs lifetimes : List IdentityRow)

def matchingIdentities (kind id : Text) : List IdentityRow :=
  if kind = "epoch" then epochs.filter (fun r => matchesText id r.id)
  else lifetimes.filter (fun r =>
    (kind = "lifetime" || r.kind = kind) && matchesText id r.id)

/-- `runtime_command` with `identities`. -/
def identities (kind id : Text) (requested offset : Nat) : Access (List IdentityRow × Option Nat) :=
  if kind ∉ identityKinds then .error "unsupported runtime identity kind"
  else weighedPage (fun r => utf8Length r.record) (clamped 1000 requested) 1048576
    (matchingIdentities epochs lifetimes kind id) offset

def socketCalls : List Text :=
  ["socket", "accept", "accept4", "bind", "listen", "connect", "send", "recv", "sendto",
    "recvfrom", "shutdown", "closesocket", "WSASend", "WSARecv"].map String.toList

/-- The fields of the data of a call that an event shows, or null. -/
def dataKeys : List Text :=
  ["call_id", "socket", "process_id", "location", "network"].map String.toList

/-- The fields of their payload that it shows where they are there. -/
def nativeKeys : List Text :=
  ["args", "return_value", "timestamp_ms", "clock_domain", "thread_id", "errno", "last_error",
    "error_semantics", "socket_event", "socket_generation_race", "socket_argument_invalid",
    "listener_socket", "requested_bytes", "transferred_bytes", "buffer_hex", "buffer_truncated",
    "sockaddr_hex", "sockaddr_truncated", "sockaddr_capacity", "sockaddr_returned_length",
    "sockaddr_read_status", "argument_read_status", "return_read_status", "network_outcome",
    "network_completeness"].map String.toList

def eventSize (event : Json) : Nat := utf8Length event.dump

def omittedDiagnostic : Text :=
  ("Retrieve the bounded original observation; " ++
    "network view item exceeds output allowance").toList

/-- What is shown instead of an event that is too long. -/
def shortEvent (r : ObservationRow) : Json :=
  .obj [("diagnostic", .str omittedDiagnostic), ("fields_omitted", .bool true),
    ("observation_id", .str r.id), ("observation_sha256", .str r.sha)]

def fullEvent (r : ObservationRow) (c : AgentCall) : Json :=
  object ([("observation_id".toList, .str r.id), ("observation_sha256".toList, .str r.sha),
    ("sequence".toList, .int r.sequence), ("phase".toList, .str r.kind),
    ("api".toList, .str c.api)] ++
    dataKeys.map (fun key => (key, (c.data.lookup key).getD .null)) ++
    [("native_fields".toList, object (nativeKeys.filterMap (fun key =>
      (c.payload.lookup key).map (fun v => (key, v)))))])

def networkEvent (r : ObservationRow) (c : AgentCall) : Json :=
  if 60000 < eventSize (fullEvent r c) then shortEvent r else fullEvent r c

/-- The event of a row that a request for a socket selects. -/
def selectedEvent (socket : Text) (r : ObservationRow) : Option Json :=
  match r.call with
  | none => none
  | some c =>
    if (r.kind = "api_enter" ∨ r.kind = "api_leave") ∧ r.backend = "frida" ∧
        (c.socketId.isSome ∨ c.api ∈ socketCalls) ∧ (socket = [] ∨ c.socketId = some socket) then
      some (networkEvent r c)
    else none

def networkEvents (socket : Text) : List Json := session.rows.filterMap (selectedEvent socket)

/-- `network_observations` by offsets. -/
def networkPage (socket : Text) (requested offset : Nat) : Access (List Json × Option Nat) :=
  if 10000 < offset then .error "network offset exceeds 10000; use from/to sequence paging"
  else weighedPage eventSize (clamped 128 requested) 60000 (networkEvents session socket) offset

theorem shortEvent_size (r : ObservationRow) : eventSize (shortEvent r) ≤ 60000 := by
  have hsize := (dumpFields_size [("diagnostic", .str omittedDiagnostic),
    ("fields_omitted", .bool true), ("observation_id", .str r.id),
    ("observation_sha256", .str r.sha)]).2
  have hid := (quoted_size r.id).2
  have hsha := (quoted_size r.sha).2
  have htext := (quoted_size omittedDiagnostic).2
  have hshort := r.short
  have hkeys : "diagnostic".toList.length = 10 ∧ "fields_omitted".toList.length = 14 ∧
      "observation_id".toList.length = 14 ∧ "observation_sha256".toList.length = 18 ∧
      omittedDiagnostic.length = 85 ∧ utf8Length (Json.bool true).dump = 4 := by decide
  unfold eventSize shortEvent
  rw [dump_obj]
  simp only [map_cons, map_nil, sum_cons, sum_nil, dump_str] at hsize
  omega

theorem networkEvent_size (r : ObservationRow) (c : AgentCall) :
    eventSize (networkEvent r c) ≤ 60000 := by
  unfold networkEvent
  by_cases hlong : 60000 < eventSize (fullEvent r c)
  · rw [if_pos hlong]
    exact shortEvent_size r
  · rw [if_neg hlong]
    exact Nat.le_of_not_lt hlong

variable {r : ObservationRow}

theorem selectedEvent_size {socket : Text} {event : Json}
    (h : selectedEvent socket r = some event) : eventSize event ≤ 60000 := by
  unfold selectedEvent at h
  split at h
  · cases h
  split at h
  · rw [← Option.some.inj h]
    exact networkEvent_size _ _
  · cases h

section Following

variable (socket : Text) (limit snapshot : Nat)

/-- Whether a record is too long to be read. -/
def unreadable (r : ObservationRow) : Bool := 65536 < utf8Length r.record

/-- The events of the rows that are read. -/
def readEvents (rows : List ObservationRow) : List Json :=
  rows.filterMap (fun r => if unreadable r then none else selectedEvent socket r)

/-- The rows behind a cursor. -/
def window (cursor : Nat) : List ObservationRow :=
  session.rows.filter (fun r => cursor < r.sequence && r.sequence ≤ snapshot)

/-- How far the loop over the rows has come. -/
structure Scan where
  cursor : Nat
  events : List Json
  omitted : Nat

/-- One row of the loop, which ends at a row that the page has no room for. -/
def consume (r : ObservationRow) (s : Scan) : Option Scan :=
  if limit ≤ s.events.length then none
  else if unreadable r then some { s with cursor := r.sequence, omitted := s.omitted + 1 }
  else
    match selectedEvent socket r with
    | none => some { s with cursor := r.sequence }
    | some event =>
      if 60000 < (s.events.map eventSize).sum + eventSize event then none
      else some { s with cursor := r.sequence, events := s.events ++ [event] }

def scan : List ObservationRow → Scan → Scan
  | [], s => s
  | r :: rows, s =>
    match consume socket limit r s with
    | none => s
    | some s => scan rows s

/-- The snapshot of a request: the last sequence number, or the one it names before it. -/
def snapshotTo (last : Option Nat) : Nat :=
  let most := (session.rows.getLast?.map ObservationRow.sequence).getD 0
  (last.map (min most)).getD most

/-- `network_observations` by sequence numbers: the events, the number of the records that
are omitted, and the next cursor. -/
def cursorPage (requested : Nat) (last : Option Nat) (cursor : Nat) : Access (Scan × Option Nat) :=
  if 9223372036854775807 < cursor ∨ ∃ n ∈ last, n < cursor then
    .error "invalid network sequence window"
  else
    let rows := (window session (snapshotTo session last) cursor).take 256
    let s := scan socket (clamped 128 requested) rows ⟨cursor, [], 0⟩
    .ok (s, if rows.isEmpty then none
      else if s.cursor < snapshotTo session last then some s.cursor else none)

/-- Following the cursors shows events and counts omitted records. -/
inductive Followed (page : Nat → Access (Scan × Option Nat)) : Nat → List Json → Nat → Prop
  | last {cursor : Nat} {s : Scan} (h : page cursor = .ok (s, none)) :
      Followed page cursor s.events s.omitted
  | next {cursor next omitted : Nat} {s : Scan} {events : List Json}
      (h : page cursor = .ok (s, some next)) (h' : Followed page next events omitted) :
      Followed page cursor (s.events ++ events) (s.omitted + omitted)

variable {session socket limit snapshot}

/-- Behind the first row of a window begins the window of the others. -/
theorem window_next {cursor : Nat} {rows : List ObservationRow}
    (h : window session snapshot cursor = r :: rows) :
    window session snapshot r.sequence = rows := by
  have hr : r ∈ window session snapshot cursor := by
    rw [h]
    exact mem_cons_self
  have hcursor : cursor < r.sequence := by
    unfold window at hr
    rw [mem_filter, Bool.and_eq_true, decide_eq_true_iff] at hr
    exact hr.2.1
  have hordered := session.ordered.filter (fun r => cursor < r.sequence && r.sequence ≤ snapshot)
  have hsame : window session snapshot r.sequence =
      (window session snapshot cursor).filter (fun a => r.sequence < a.sequence) := by
    unfold window
    rw [filter_filter]
    refine filter_congr (fun a _ => ?_)
    by_cases ha : r.sequence < a.sequence
    · simp [ha, show cursor < a.sequence by omega]
    · simp [ha]
  change (window session snapshot cursor).Pairwise _ at hordered
  rw [h, pairwise_cons] at hordered
  rw [hsame, h, filter_cons_of_neg (by simp)]
  exact filter_eq_self.mpr (fun a ha => decide_eq_true (hordered.1 a ha))

theorem consume_ok {s s' : Scan} (h : consume socket limit r s = some s') :
    s'.cursor = r.sequence ∧ s'.events = s.events ++ readEvents socket [r] ∧
      s'.omitted = s.omitted + [r].countP unreadable := by
  unfold consume at h
  unfold readEvents
  rw [filterMap_cons, countP_singleton]
  split at h
  · cases h
  by_cases hlong : unreadable r = true
  · rw [if_pos hlong] at h ⊢
    cases h
    exact ⟨rfl, (append_nil _).symm, by rw [if_pos hlong]⟩
  rw [if_neg hlong] at h ⊢
  rw [if_neg hlong]
  cases hevent : selectedEvent socket r with
  | none =>
    rw [hevent] at h
    cases h
    exact ⟨rfl, (append_nil _).symm, rfl⟩
  | some event =>
    rw [hevent] at h
    dsimp only at h
    split at h
    · cases h
    · cases h
      exact ⟨rfl, rfl, rfl⟩

theorem consume_first (socket : Text) (hlimit : 1 ≤ limit) (r : ObservationRow) {s : Scan}
    (hs : s.events = []) : ∃ s', consume socket limit r s = some s' := by
  unfold consume
  rw [hs, length_nil, if_neg (by omega)]
  split
  · exact ⟨_, rfl⟩
  split
  · exact ⟨_, rfl⟩
  next event hevent =>
    have hsize := selectedEvent_size hevent
    rw [map_nil, sum_nil, if_neg (by omega)]
    exact ⟨_, rfl⟩

/-- What was shown and counted, with what is behind the cursor, stays the same. -/
structure Passes (session : SessionRows sha256) (socket : Text) (snapshot : Nat) (s s' : Scan) :
    Prop where
  events : s'.events ++ readEvents socket (window session snapshot s'.cursor) =
    s.events ++ readEvents socket (window session snapshot s.cursor)
  omitted : s'.omitted + (window session snapshot s'.cursor).countP unreadable =
    s.omitted + (window session snapshot s.cursor).countP unreadable
  length : (window session snapshot s'.cursor).length ≤ (window session snapshot s.cursor).length

theorem scan_passes (socket : Text) (limit : Nat) (rows more : List ObservationRow) (s : Scan)
    (h : window session snapshot s.cursor = rows ++ more) :
    Passes session socket snapshot s (scan socket limit rows s) := by
  induction rows generalizing s with
  | nil => exact ⟨rfl, rfl, Nat.le_refl _⟩
  | cons r rows ih =>
    unfold scan
    cases hstep : consume socket limit r s with
    | none => exact ⟨rfl, rfl, Nat.le_refl _⟩
    | some s' =>
      obtain ⟨hcursor, hevents, homitted⟩ := consume_ok hstep
      have hnext : window session snapshot s'.cursor = rows ++ more := by
        rw [hcursor]
        exact window_next h
      have hrest := ih s' hnext
      have hall : window session snapshot s.cursor = [r] ++ window session snapshot s'.cursor := by
        rw [h, hnext]
        rfl
      refine ⟨hrest.events.trans ?_, hrest.omitted.trans ?_, Nat.le_trans hrest.length ?_⟩
      · unfold readEvents at hevents ⊢
        rw [hall, hevents, filterMap_append, append_assoc]
      · rw [hall, homitted, countP_append, Nat.add_assoc]
      · rw [hall, length_append]
        omega

theorem scan_shorter (socket : Text) (hlimit : 1 ≤ limit) {rows more : List ObservationRow}
    {s : Scan}
    (h : window session snapshot s.cursor = rows ++ more) (hs : s.events = []) (hrows : rows ≠ []) :
    (window session snapshot (scan socket limit rows s).cursor).length <
      (window session snapshot s.cursor).length := by
  cases rows with
  | nil => exact absurd rfl hrows
  | cons r rows =>
    obtain ⟨s', hstep⟩ := consume_first socket hlimit r hs
    have hnext : window session snapshot s'.cursor = rows ++ more := by
      rw [(consume_ok hstep).1]
      exact window_next h
    have hle := (scan_passes socket limit rows more s' hnext).length
    unfold scan
    rw [hstep, h]
    rw [hnext] at hle
    exact Nat.lt_succ_of_le hle

theorem snapshotTo_le (session : SessionRows sha256) (last : Option Nat) :
    snapshotTo session last ≤ 9223372036854775807 ∧ ∀ n ∈ last, snapshotTo session last ≤ n := by
  have hmost : (session.rows.getLast?.map ObservationRow.sequence).getD 0 ≤
      9223372036854775807 := by
    cases h : session.rows.getLast? with
    | none => exact Nat.zero_le _
    | some r => exact session.bounded r (mem_of_getLast? h)
  unfold snapshotTo
  cases last with
  | none => exact ⟨hmost, fun n h => nomatch h⟩
  | some most =>
    refine ⟨Nat.le_trans (Nat.min_le_left _ _) hmost, fun n h => ?_⟩
    cases h
    exact Nat.min_le_right _ _

/-- Following the cursors shows every event of the window once and counts every record that
is too long. -/
theorem followed {requested : Nat} {last : Option Nat} {cursor : Nat}
    (hcursor : cursor ≤ 9223372036854775807) (hlast : ∀ n ∈ last, cursor ≤ n) :
    Followed (cursorPage session socket requested last) cursor
      (readEvents socket (window session (snapshotTo session last) cursor))
      ((window session (snapshotTo session last) cursor).countP unreadable) := by
  induction hn : (window session (snapshotTo session last) cursor).length using
    Nat.strong_induction_on generalizing cursor with
  | _ n ih =>
    have hpage : ¬ (9223372036854775807 < cursor ∨ ∃ n ∈ last, n < cursor) := by
      rintro (hover | ⟨n, hn, hless⟩)
      · omega
      · exact absurd (hlast n hn) (by omega)
    have hlimit : 1 ≤ clamped 128 requested := by
      unfold clamped
      omega
    have hsplit := (take_append_drop 256
      (window session (snapshotTo session last) cursor)).symm
    have hpasses := scan_passes socket (clamped 128 requested) _ _ ⟨cursor, [], 0⟩ hsplit
    have hshorter := scan_shorter socket hlimit (s := ⟨cursor, [], 0⟩) hsplit rfl
    have heq : cursorPage session socket requested last cursor = _ := if_neg hpage
    dsimp only at heq hpasses hshorter
    generalize hrows : (window session (snapshotTo session last) cursor).take 256 = rows
      at heq hpasses hshorter
    generalize hscan : scan socket (clamped 128 requested) rows ⟨cursor, [], 0⟩ = s
      at heq hpasses hshorter
    have hevents := hpasses.events
    have homitted := hpasses.omitted
    rw [nil_append] at hevents
    rw [Nat.zero_add] at homitted
    have hend : window session (snapshotTo session last) s.cursor = [] →
        cursorPage session socket requested last cursor = .ok (s, none) →
        Followed (cursorPage session socket requested last) cursor
          (readEvents socket (window session (snapshotTo session last) cursor))
          ((window session (snapshotTo session last) cursor).countP unreadable) := by
      intro hempty hlast
      rw [hempty, readEvents, filterMap_nil, append_nil] at hevents
      rw [hempty, countP_nil, Nat.add_zero] at homitted
      rw [← hevents, ← homitted]
      exact .last hlast
    by_cases hempty : rows = []
    · subst hempty
      have hwindow := (take_eq_nil_iff.mp hrows).resolve_left (by decide)
      rw [isEmpty_nil, if_pos rfl] at heq
      refine hend ?_ heq
      rw [← hscan]
      exact hwindow
    rw [if_neg (by rw [List.isEmpty_iff]; exact hempty)] at heq
    by_cases hless : s.cursor < snapshotTo session last
    · rw [if_pos hless] at heq
      obtain ⟨hsnapshot, hnamed⟩ := snapshotTo_le session last
      rw [← hevents, ← homitted]
      exact .next heq (ih _ (hn ▸ hshorter hempty) (by omega)
        (fun n h => by have hle := hnamed n h; omega) rfl)
    · rw [if_neg hless] at heq
      refine hend (filter_eq_nil_iff.mpr (fun r _ => ?_)) heq
      rw [Bool.and_eq_true, decide_eq_true_iff, decide_eq_true_iff]
      omega

end Following

theorem clamped_pos (most n : Nat) (h : 1 ≤ most) : 1 ≤ clamped most n := by
  unfold clamped
  omega

/-- Observations and identities are all visited exactly when no record alone is longer than
a page, and network events by offsets exactly when no page begins beyond the last offset that
may be named.  By sequence numbers they are visited always. -/
theorem runtime_pages_iff (session : SessionRows sha256) (epochs lifetimes : List IdentityRow)
    (id anchor kind socket : Text) (requested : Nat) :
    (Visit (observations session id anchor kind requested) 0
        (matchingObservations session id anchor kind) ↔
      ∀ r ∈ matchingObservations session id anchor kind, utf8Length r.record ≤ 2097152) ∧
    (∀ kind ∈ identityKinds, Visit (identities epochs lifetimes kind id requested) 0
        (matchingIdentities epochs lifetimes kind id) ↔
      ∀ r ∈ matchingIdentities epochs lifetimes kind id, utf8Length r.record ≤ 1048576) ∧
    (Visit (networkPage session socket requested) 0 (networkEvents session socket) ↔
      ∀ offset, Begins (fits eventSize (clamped 128 requested) 60000)
        (networkEvents session socket) offset → offset ≤ 10000) ∧
    ∀ (cursor : Nat) (last : Option Nat), cursor ≤ 9223372036854775807 →
      (∀ n ∈ last, cursor ≤ n) → Followed (cursorPage session socket requested last) cursor
        (readEvents socket (window session (snapshotTo session last) cursor))
        ((window session (snapshotTo session last) cursor).countP unreadable) := by
  refine ⟨weighed_visit_all (clamped_pos 1000 requested (by decide)), ?_, ?_,
    fun _ _ hcursor hlast => followed hcursor hlast⟩
  · intro kind hkind
    have hpage : identities epochs lifetimes kind id requested = weighedPage
        (fun r => utf8Length r.record) (clamped 1000 requested) 1048576
        (matchingIdentities epochs lifetimes kind id) := by
      funext offset
      exact if_neg (not_not_intro hkind)
    rw [hpage]
    exact weighed_visit_all (clamped_pos 1000 requested (by decide))
  · refine (weighed_visit_iff 10000 (clamped_pos 128 requested (by decide))
      (fun offset _ => ⟨fun h => if_neg (Nat.not_lt.mpr h),
        fun h => ⟨_, if_pos h⟩⟩)).trans (and_iff_right ?_)
    intro event h
    obtain ⟨r, _, hevent⟩ := mem_filterMap.mp h
    exact selectedEvent_size hevent

def noteRecord (t : Text) : Json :=
  .obj [("data", .str t), ("id", .str "obs_1"), ("kind", .str "note")]

/-- A session with one observation. -/
def noteSession (t : Text) : SessionRows (fun _ => []) where
  rows := [{
    sequence := 1, id := "obs_1", kind := "note", anchor := [], sha := []
    record := (noteRecord t).dump, backend := [], call := none
    short := by decide }]
  ordered := pairwise_singleton _ _
  bounded := by
    intro r hr
    rw [mem_singleton.mp hr]
    exact Nat.le_of_ble_eq_true rfl
  sealed := by
    intro r hr
    rw [mem_singleton.mp hr]

theorem note_visited {t : Text} (h : Visit (observations (noteSession t) [] [] [] 100) 0
    (matchingObservations (noteSession t) [] [] [])) : t.length < 2097152 := by
  have hfits := (weighed_visit_all (clamped_pos 1000 100 (by decide))).mp h _
    (mem_singleton_self _)
  have hsize := (dumpFields_size [("data", .str t), ("id", .str "obs_1"),
    ("kind", .str "note")]).1
  have hdata := (quoted_size t).1
  change utf8Length (noteRecord t).dump ≤ 2097152 at hfits
  rw [noteRecord, dump_obj] at hfits
  rw [map_cons, sum_cons, dump_str] at hsize
  omega

/-- The page of an observation of two MiB shows nothing and names its own offset. -/
theorem long_record_blocks : ¬ ∀ (sha256 : Text → Text) (session : SessionRows sha256)
    (id anchor kind : Text) (requested : Nat),
    Visit (observations session id anchor kind requested) 0
      (matchingObservations session id anchor kind) := by
  intro hall
  have hless := note_visited (hall _ (noteSession (List.replicate 2097152 'a')) [] [] [] 100)
  rw [length_replicate] at hless
  exact absurd hless (Nat.lt_irrefl _)

end Indago.RuntimePages
