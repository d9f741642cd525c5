import IndagoRev.Workbench.PacketStreams

/-!
# What a projection of packets says

The references of a packet lead to the values that they quote, in the result that they are
part of (`cites_of_projected`).  A stream lists the packets that cite it, in their order
(`Members.join`), and each once where no packet has one id for its two streams (`nodup_refs`).
The packets of the result are those of the document (`projectPackets_ok`).

Main result: `projectPacketStreams_correct`.
-/

namespace Indago

open StdText JsonValues Transactions JsonPointers List

variable {sha256 : Text → Text} {result : Json} {profile : Text}

variable (streams : List PacketStream)

/-- The packets of the stream with an id. -/
def members (id : Text) : List Json :=
  (streams.filter (fun s => s.id = id)).flatMap PacketStream.packetIds

theorem members_cons (s : PacketStream) (streams : List PacketStream) (id : Text) :
    members (s :: streams) id = (if s.id = id then s.packetIds else []) ++ members streams id := by
  unfold members
  by_cases h : s.id = id
  · rw [filter_cons_of_pos (by simpa using h), flatMap_cons, if_pos h]
  · rw [filter_cons_of_neg (by simpa using h), if_neg h, nil_append]

variable {streams : List PacketStream}

theorem members_absent {id : Text}
    (h : id ∉ streams.map PacketStream.id) : members streams id = [] := by
  unfold members
  rw [filter_eq_nil_iff.mpr]
  · rfl
  · intro s hs
    rw [decide_eq_true_eq]
    exact fun hid => h (mem_map.mpr ⟨s, hs, hid⟩)

variable (packetId : Json) (ref : StreamRef)

theorem ids_joinStream : (joinStream packetId ref streams).map PacketStream.id =
      if ref.id ∈ streams.map PacketStream.id then streams.map PacketStream.id
      else streams.map PacketStream.id ++ [ref.id] := by
  induction streams with
  | nil => rfl
  | cons s rest ih =>
    rw [joinStream]
    by_cases h : s.id = ref.id
    · rw [if_pos h, if_pos (by rw [map_cons, h]; exact mem_cons_self)]
      rfl
    rw [if_neg h, map_cons, ih, map_cons]
    simp only [mem_cons, Ne.symm h, false_or]
    split
    · rfl
    · rfl

theorem members_joinStream (hids : (streams.map PacketStream.id).Nodup) (id : Text) :
    members (joinStream packetId ref streams) id =
      members streams id ++ if id = ref.id then [packetId] else [] := by
  induction streams with
  | nil =>
    rw [joinStream, members_cons]
    by_cases h : id = ref.id
    · rw [if_pos h, if_pos h.symm]
      rfl
    · rw [if_neg h, if_neg (Ne.symm h)]
      rfl
  | cons s rest ih =>
    rw [map_cons, nodup_cons] at hids
    rw [joinStream]
    by_cases h : s.id = ref.id
    · rw [if_pos h, members_cons, members_cons]
      by_cases hid : id = ref.id
      · have hs : s.id = id := h.trans hid.symm
        rw [if_pos hs, if_pos hs, if_pos hid, members_absent (hs ▸ hids.1), append_nil,
          append_nil]
      · have hs : ¬ s.id = id := fun hs => hid (hs.symm.trans h)
        rw [if_neg hs, if_neg hs, if_neg hid, append_nil]
    · rw [if_neg h, members_cons, members_cons, ih hids.2, append_assoc]

theorem nodup_joinStream (hids : (streams.map PacketStream.id).Nodup) :
    ((joinStream packetId ref streams).map PacketStream.id).Nodup := by
  rw [ids_joinStream]
  split
  · exact hids
  next hnew =>
    rw [nodup_append]
    refine ⟨hids, nodup_singleton _, ?_⟩
    intro a ha b hb hab
    rw [mem_singleton] at hb
    exact hnew (hb ▸ hab ▸ ha)

/-- Streams with distinct ids, whose members are the packets that cite them, each once when no
packet has one id for two streams. -/
structure Members (streams : List PacketStream) (packets : List PacketProjection) : Prop where
  distinct : (streams.map PacketStream.id).Nodup
  listed : (∀ p ∈ packets, (p.streamRefs.map StreamRef.id).Nodup) → ∀ id, members streams id =
    (packets.filter (fun p => id ∈ p.streamRefs.map StreamRef.id)).map PacketProjection.id
  cited : ∀ p ∈ packets, ∀ ref ∈ p.streamRefs, ref.id ∈ streams.map PacketStream.id
  used : ∀ id ∈ streams.map PacketStream.id, ∃ p ∈ packets, ∃ ref ∈ p.streamRefs, ref.id = id

/-- The streams after a packet has joined those that it cites. -/
theorem join_refs (refs : List StreamRef) (hids : (streams.map PacketStream.id).Nodup) :
    let after := refs.foldl (fun streams ref => joinStream packetId ref streams) streams
    (after.map PacketStream.id).Nodup ∧
    ((refs.map StreamRef.id).Nodup → ∀ id, members after id =
      members streams id ++ if id ∈ refs.map StreamRef.id then [packetId] else []) ∧
    ∀ id, id ∈ after.map PacketStream.id ↔
      id ∈ streams.map PacketStream.id ∨ id ∈ refs.map StreamRef.id := by
  induction refs generalizing streams with
  | nil => exact ⟨hids, fun _ id => (append_nil _).symm, fun id => by simp⟩
  | cons ref rest ih =>
    obtain ⟨hdistinct, hmembers, hmem⟩ := ih (nodup_joinStream packetId ref hids)
    refine ⟨hdistinct, ?_, ?_⟩
    · intro hrefs id
      rw [map_cons, nodup_cons] at hrefs
      rw [foldl_cons, hmembers hrefs.2 id, members_joinStream packetId ref hids, append_assoc,
        map_cons]
      congr 1
      by_cases hid : id = ref.id
      · rw [if_pos hid, if_neg (hid ▸ hrefs.1), if_pos (hid ▸ mem_cons_self)]
        rfl
      · rw [if_neg hid, nil_append]
        simp only [mem_cons, hid, false_or]
    · intro id
      rw [foldl_cons, hmem id, ids_joinStream, map_cons, mem_cons]
      split
      · next hold =>
          constructor
          · rintro (h | h)
            · exact Or.inl h
            · exact Or.inr (Or.inr h)
          rintro (h | rfl | h)
          · exact Or.inl h
          · exact Or.inl hold
          · exact Or.inr h
      · rw [mem_append, mem_singleton, or_assoc]

variable {p : PacketProjection}

theorem Members.join {packets : List PacketProjection} (h : Members streams packets) :
    Members (p.join streams) (packets ++ [p]) := by
  obtain ⟨hdistinct, hmembers, hmem⟩ := join_refs p.id p.streamRefs h.distinct
  refine ⟨hdistinct, ?_, ?_, ?_⟩
  · intro hnodup id
    rw [forall_mem_append, forall_mem_singleton] at hnodup
    rw [filter_append, map_append, ← h.listed hnodup.1 id]
    refine (hmembers hnodup.2 id).trans ?_
    congr 1
    by_cases hid : id ∈ p.streamRefs.map StreamRef.id
    · rw [if_pos hid, filter_cons_of_pos (by simpa using hid)]
      rfl
    · rw [if_neg hid, filter_cons_of_neg (by simpa using hid)]
      rfl
  · intro q hq ref href
    rcases mem_append.mp hq with hold | hnew
    · exact (hmem ref.id).mpr (Or.inl (h.cited q hold ref href))
    · rw [mem_singleton.mp hnew] at href
      exact (hmem ref.id).mpr (Or.inr (mem_map_of_mem href))
  · intro id hid
    rcases (hmem id).mp hid with hold | hnew
    · obtain ⟨q, hq, hrest⟩ := h.used id hold
      exact ⟨q, mem_append_left _ hq, hrest⟩
    · obtain ⟨ref, href, hsame⟩ := mem_map.mp hnew
      exact ⟨p, mem_append_right _ (mem_singleton_self p), ref, href, hsame⟩

theorem members_stream (hids : (streams.map PacketStream.id).Nodup)
    {s : PacketStream} (hs : s ∈ streams) : members streams s.id = s.packetIds := by
  induction streams with
  | nil => cases hs
  | cons a rest ih =>
    rw [map_cons, nodup_cons] at hids
    rw [members_cons]
    rcases mem_cons.mp hs with rfl | hrest
    · rw [if_pos rfl, members_absent hids.1, append_nil]
    · have hne : ¬ a.id = s.id := fun h => hids.1 (h ▸ mem_map_of_mem hrest)
      rw [if_neg hne, nil_append, ih hids.2 hrest]

/-- The projection of the packet at an index. -/
structure ProjectedFrom (sha256 : Text → Text) (result : Json) (profile : Text) (i : Nat)
    (packet : Json) (p : PacketProjection) : Prop where
  read : ∃ layers, layersOf result i = .ok layers ∧
    p.frames = projectFrames layers (layersPointer i) ∧
    p.streamRefs = (readStreamRef sha256 profile i layers "tcp").1.toList ++
      (readStreamRef sha256 profile i layers "udp").1.toList
  original : packet = .obj p.packet
  identity : p.streamRefs ≠ [] → packet.at? "id" = .ok p.id

variable {i : Nat} {packet : Json}

theorem projectPacket_ok (h : projectPacket sha256 result profile i packet = .ok p) :
    ProjectedFrom sha256 result profile i packet p := by
  cases packet with
  | null | bool | int | real | str | arr => cases h
  | obj fields =>
    unfold projectPacket at h
    rw [except_bind_ok] at h
    obtain ⟨layers, hlayers, h⟩ := h
    rw [except_bind_ok] at h
    obtain ⟨hash, -, h⟩ := h
    rw [except_bind_ok] at h
    obtain ⟨-, -, h⟩ := h
    dsimp only at h
    rw [except_bind_ok] at h
    obtain ⟨id, hid, h⟩ := h
    cases h
    refine ⟨⟨layers, hlayers, rfl, rfl⟩, rfl, ?_⟩
    intro hrefs
    unfold citingId at hid
    rwa [if_neg hrefs] at hid

theorem projectPackets_ok {packets : List Json} {streams streams' : List PacketStream}
    {ps : List PacketProjection}
    (h : projectPackets sha256 result profile packets i streams = .ok (ps, streams')) :
    List.Forall₂ (fun c p => ProjectedFrom sha256 result profile c.2 c.1 p) (packets.zipIdx i) ps ∧
      streams' = ps.foldl PacketProjection.join streams := by
  induction packets generalizing i streams ps with
  | nil =>
    cases h
    exact ⟨List.Forall₂.nil, rfl⟩
  | cons packet rest ih =>
    unfold projectPackets at h
    rw [except_bind_ok] at h
    obtain ⟨p, hp, h⟩ := h
    rw [except_bind_ok] at h
    obtain ⟨⟨more, last⟩, hmore, h⟩ := h
    cases h
    obtain ⟨hall, rfl⟩ := ih hmore
    rw [zipIdx_cons]
    exact ⟨List.Forall₂.cons (projectPacket_ok hp) hall, rfl⟩

theorem members_foldl {ps done : List PacketProjection} (h : Members streams done) :
    Members (ps.foldl PacketProjection.join streams) (done ++ ps) := by
  induction ps generalizing done streams with
  | nil =>
    rw [append_nil]
    exact h
  | cons p rest ih =>
    have hnext := ih (h.join (p := p))
    rwa [append_assoc] at hnext

/-- A stream that is read has a canonical number, in a field of its layer. -/
theorem readStreamRef_some {layers : Json} {transport : Text} {ref : StreamRef}
    (h : (readStreamRef sha256 profile i layers transport).1 = some ref) :
    ref.id = streamId sha256 profile transport ref.nativeOrdinal ∧ ref.transport = transport ∧
      (∃ n, canonical32 ref.nativeOrdinal = some n) ∧
      ref.nativePointer = layersPointer i ++ '/' :: transport ++ '/' :: (transport ++ ".stream") ∧
      follow layers [transport, transport ++ ".stream"] = some (.str ref.nativeOrdinal) := by
  unfold readStreamRef at h
  cases hlayer : layers.get? transport with
  | none =>
    rw [hlayer] at h
    cases h
  | some layer =>
    rw [hlayer] at h
    cases layer with
    | null | bool | int | real | str | arr => cases h
    | obj fields =>
      dsimp only at h
      cases hfield : (Json.obj fields).get? (transport ++ ".stream") with
      | none =>
        rw [hfield] at h
        cases h
      | some v =>
        rw [hfield] at h
        cases v with
        | null | bool | int | real | arr | obj => cases h
        | str number =>
          dsimp only at h
          cases hnumber : canonical32 number with
          | none =>
            rw [hnumber] at h
            cases h
          | some n =>
            rw [hnumber] at h
            cases h
            refine ⟨rfl, rfl, ⟨n, hnumber⟩, rfl, ?_⟩
            cases layers with
            | null | bool | int | real | str | arr => cases hlayer
            | obj all =>
              have hchild : child (.obj all) transport = some (.obj fields) := hlayer
              have hlast : child (.obj fields) (transport ++ ".stream") =
                some (.str number) := hfield
              rw [follow, hchild]
              show follow (.obj fields) [transport ++ ".stream"] = _
              rw [follow, hlast]
              rfl

theorem canonical32_some {number : Text} {n : Nat} (h : canonical32 number = some n) :
    n < 2 ^ 32 ∧ decimal n = number := by
  unfold canonical32 at h
  rw [Option.ite_none_right_eq_some] at h
  obtain ⟨⟨-, -, hless, hsame⟩, hn⟩ := h
  cases hn
  exact ⟨hless, hsame⟩

/-- The way to the layers of a packet. -/
def layersPath (i : Nat) : List Text :=
  ["native_packets", decimal i, "_source", "layers"]

theorem layersPointer_text (i : Nat) : layersPointer i = pointerText (layersPath i) := by
  unfold layersPath
  rw [pointerText_cons, pointerText_cons, escapeToken_decimal]
  unfold layersPointer
  rw [append_assoc]
  rfl

theorem child_of_at {j v : Json} {key : Text} (h : j.at? key = .ok v) : child j key = some v := by
  cases j with
  | null | bool | int | real | str | arr => cases h
  | obj fields =>
    unfold Json.at? at h
    dsimp only at h
    cases hlookup : fields.lookup key with
    | none =>
      rw [hlookup] at h
      cases h
    | some w =>
      rw [hlookup] at h
      cases h
      exact hlookup

theorem follow_layers {layers : Json} (h : layersOf result i = .ok layers) :
    follow result (layersPath i) = some layers := by
  unfold layersOf at h
  rw [except_bind_ok] at h
  obtain ⟨natives, hnatives, h⟩ := h
  cases natives with
  | null | bool | int | real | str | obj => cases h
  | arr items =>
    dsimp only at h
    cases hitem : items[i]? with
    | none =>
      rw [hitem] at h
      cases h
    | some native =>
      rw [hitem] at h
      dsimp only at h
      rw [except_bind_ok] at h
      obtain ⟨source, hsource, hlayers⟩ := h
      unfold layersPath
      rw [follow, child_of_at hnatives]
      show follow (.arr items) _ = _
      rw [follow, child_item hitem]
      show follow native _ = _
      rw [follow, child_of_at hsource]
      show follow source _ = _
      rw [follow, child_of_at hlayers]
      rfl

/-- The result that is returned has the native packets of the one given. -/
theorem follow_json (p : StreamProjection) {ts : List Text} (v : Json)
    (h : follow result ("native_packets" :: ts) = some v) :
    follow (p.json result) ("native_packets" :: ts) = some v := by
  cases result with
  | null | bool | int | real | str | arr => exact h
  | obj fields =>
    have hchild : child (p.json (.obj fields)) "native_packets" =
        child (.obj fields) "native_packets" := by
      unfold StreamProjection.json child
      dsimp only
      rw [Json.lookup_insertField, if_neg (by decide), Json.lookup_insertField, if_neg (by decide),
        Json.lookup_insertField, if_neg (by decide)]
    rw [follow, hchild]
    exact h

/-- What a packet cites: values of the result, canonical numbers, and every frame field unless
something was skipped. -/
structure Cites (result json : Json) (i : Nat) (p : PacketProjection) : Prop where
  frames : ∀ r ∈ p.frames.refs, evaluate json r.nativePointer = some (.str r.nativeFrameNumber) ∧
    r.frame ≠ 0 ∧ r.frame < 2 ^ 32 ∧ decimal r.frame = r.nativeFrameNumber
  streams : ∀ r ∈ p.streamRefs, evaluate json r.nativePointer = some (.str r.nativeOrdinal) ∧
    ∃ n < 2 ^ 32, decimal n = r.nativeOrdinal
  complete : p.frames.isPartial = false → ∀ layers ts kind raw, layersOf result i = .ok layers →
    FrameOccurrence layers ts kind raw → ∃ r ∈ p.frames.refs, r.kind = kind ∧
      .str r.nativeFrameNumber = raw ∧ r.nativePointer = layersPointer i ++ pointerText ts

/-- No tcp stream has the id of a udp stream, among the numbers that are accepted. -/
def SeparateStreams (sha256 : Text → Text) (profile : Text) : Prop :=
  ∀ n < 2 ^ 32, ∀ m < 2 ^ 32,
    streamId sha256 profile "tcp" (decimal n) ≠ streamId sha256 profile "udp" (decimal m)

/-- A projection of the packets of the result that cite what they found, and whose streams list
the packets that cite them. -/
structure StreamProjection.Correct (sha256 : Text → Text) (out : StreamProjection) (result : Json) :
    Prop where
  packets : ∃ stored, result.at? "packets" = .ok stored ∧
    packetList stored = .ok (out.packets.map (fun p => .obj p.packet))
  cites : ∀ (i : Nat) (p : PacketProjection), out.packets[i]? = some p → Cites result (out.json result) i p
  distinct : (out.streams.map PacketStream.id).Nodup
  members : SeparateStreams sha256 out.profile → ∀ s ∈ out.streams, s.packetIds =
    (out.packets.filter (fun p => s.id ∈ p.streamRefs.map StreamRef.id)).map PacketProjection.id
  listed : ∀ p ∈ out.packets, ∀ r ∈ p.streamRefs, r.id ∈ out.streams.map PacketStream.id
  identified : ∀ p ∈ out.packets, p.streamRefs ≠ [] → (Json.obj p.packet).at? "id" = .ok p.id

variable (out : StreamProjection)

/-- A pointer below the layers of a packet names what is there. -/
theorem evaluate_layers {layers raw : Json} {ts : List Text}
    (hlayers : layersOf result i = .ok layers) (h : follow layers ts = some raw) :
    evaluate (out.json result) (layersPointer i ++ pointerText ts) = some raw := by
  rw [layersPointer_text, ← pointerText_append, evaluate_text]
  apply follow_json
  show follow result (layersPath i ++ ts) = some raw
  rw [follow_append, follow_layers hlayers]
  exact h

theorem cites_of_projected
    (hresult : KeysDistinct result) (h : ProjectedFrom sha256 result profile i packet p) :
    Cites result (out.json result) i p := by
  obtain ⟨layers, hlayers, hframes, hrefs⟩ := h.read
  have hdistinct : KeysDistinct layers := by
    apply evaluate_distinct hresult
    rw [evaluate_text]
    exact follow_layers hlayers
  have hprojects := visitFrames_projects layers (layersPointer i) 0 ⟨0, [], false⟩
  constructor
  · intro r hr
    rw [hframes] at hr
    rcases hprojects.sound r hr with hold | ⟨ts, hoccurs, hpointer, hnumber, hzero⟩
    · cases hold
    · rw [hpointer]
      exact ⟨evaluate_layers out hlayers (hoccurs.follow hdistinct), hzero, canonical32_some hnumber⟩
  · intro r hr
    have hread : ∃ transport, (transport = "tcp" ∨ transport = "udp") ∧
        (readStreamRef sha256 profile i layers transport).1 = some r := by
      rw [hrefs, mem_append, Option.mem_toList, Option.mem_toList] at hr
      rcases hr with hr | hr
      · exact ⟨_, Or.inl rfl, hr⟩
      · exact ⟨_, Or.inr rfl, hr⟩
    obtain ⟨transport, htransport, hsome⟩ := hread
    obtain ⟨-, -, ⟨n, hn⟩, hpointer, hfollow⟩ := readStreamRef_some hsome
    have hplain : layersPointer i ++ '/' :: transport ++ '/' :: (transport ++ ".stream") =
        layersPointer i ++ pointerText [transport, transport ++ ".stream"] := by
      rw [append_assoc]
      rcases htransport with rfl | rfl
      · rfl
      · rfl
    obtain ⟨hless, hsame⟩ := canonical32_some hn
    rw [hpointer, hplain]
    exact ⟨evaluate_layers out hlayers hfollow, n, hless, hsame⟩
  · intro hwhole layers' ts kind raw hlayers' hoccurs
    rw [hlayers] at hlayers'
    cases hlayers'
    rw [hframes] at hwhole ⊢
    exact hprojects.complete hwhole ts kind raw hoccurs

/-- A packet cites no stream twice when tcp and udp streams have different ids. -/
theorem nodup_refs (hids : SeparateStreams sha256 profile)
    (h : ProjectedFrom sha256 result profile i packet p) : (p.streamRefs.map StreamRef.id).Nodup := by
  obtain ⟨layers, -, -, hrefs⟩ := h.read
  rw [hrefs]
  cases htcp : (readStreamRef sha256 profile i layers "tcp").1 with
  | none =>
    cases (readStreamRef sha256 profile i layers "udp").1 with
    | none => exact nodup_nil
    | some r => exact nodup_singleton _
  | some r =>
    cases hudp : (readStreamRef sha256 profile i layers "udp").1 with
    | none => exact nodup_singleton _
    | some q =>
      have hne : r.id ≠ q.id := by
        obtain ⟨hr, -, ⟨n, hn⟩, -⟩ := readStreamRef_some htcp
        obtain ⟨hq, -, ⟨m, hm⟩, -⟩ := readStreamRef_some hudp
        obtain ⟨hless, hn⟩ := canonical32_some hn
        obtain ⟨hless', hm⟩ := canonical32_some hm
        rw [hr, hq, ← hn, ← hm]
        exact hids n hless m hless'
      show [r.id, q.id].Nodup
      rw [nodup_cons]
      exact ⟨by rwa [mem_singleton], nodup_singleton _⟩

/-- **Packet projection** keeps the packets, cites what it found and admits what it skipped. -/
theorem projectPacketStreams_correct {sha256 : Text → Text} {result : Json} {out : StreamProjection}
    (hresult : KeysDistinct result) (h : projectPacketStreams sha256 result = .ok out) :
    out.Correct sha256 result := by
  unfold projectPacketStreams at h
  rw [except_bind_ok] at h
  obtain ⟨artifact, -, h⟩ := h
  rw [except_bind_ok] at h
  obtain ⟨provenance, -, h⟩ := h
  rw [except_bind_ok] at h
  obtain ⟨stored, hstored, h⟩ := h
  rw [except_bind_ok] at h
  obtain ⟨packets, hpackets, h⟩ := h
  rw [except_bind_ok] at h
  obtain ⟨⟨ps, streams⟩, hps, h⟩ := h
  cases h
  obtain ⟨hall, rfl⟩ := projectPackets_ok hps
  have hat : ∀ i p, ps[i]? = some p → ∃ packet, packets[i]? = some packet ∧
      ProjectedFrom sha256 result (captureProfile sha256 artifact provenance) i packet p := by
    intro i p hp
    obtain ⟨hlength, hget⟩ := forall₂_iff_get.mp hall
    obtain ⟨hi, hpi⟩ := List.getElem?_eq_some_iff.mp hp
    have hi' : i < packets.zipIdx.length := by rw [hlength]; exact hi
    have hprojected := hget i hi' hi
    rw [get_eq_getElem, get_eq_getElem, getElem_zipIdx, hpi, Nat.zero_add] at hprojected
    have hlt : i < packets.length := by rwa [length_zipIdx] at hi'
    exact ⟨_, getElem?_eq_getElem hlt, hprojected⟩
  have hmembers : Members (ps.foldl PacketProjection.join []) ([] ++ ps) :=
    members_foldl ⟨nodup_nil, fun _ id => rfl, forall_mem_nil _, forall_mem_nil _⟩
  rw [nil_append] at hmembers
  have horiginal : packets = ps.map (fun p => .obj p.packet) := by
    have hsame : List.Forall₂ (fun (c : Json × Nat) p => c.1 = .obj p.packet) packets.zipIdx ps :=
      hall.imp (fun c p hp => hp.original)
    rw [← zipIdx_map_fst 0 packets, ← forall₂_eq_eq_eq, forall₂_map_left_iff, forall₂_map_right_iff]
    exact hsame
  refine ⟨⟨stored, hstored, horiginal ▸ hpackets⟩, ?_, hmembers.distinct, ?_, hmembers.cited, ?_⟩
  · intro i p hp
    obtain ⟨packet, -, hprojected⟩ := hat i p hp
    exact cites_of_projected _ hresult hprojected
  · intro hids s hs
    rw [← members_stream hmembers.distinct hs]
    refine hmembers.listed (fun p hp => ?_) s.id
    obtain ⟨i, hi⟩ := mem_iff_getElem?.mp hp
    obtain ⟨packet, -, hprojected⟩ := hat i p hi
    exact nodup_refs hids hprojected
  intro p hp hrefs
  obtain ⟨i, hi⟩ := mem_iff_getElem?.mp hp
  obtain ⟨packet, -, hprojected⟩ := hat i p hi
  rw [← hprojected.original]
  exact hprojected.identity hrefs

/-- A capture of one packet, which belongs to a tcp stream. -/
def sampleCapture : Json :=
  .obj [("artifact_sha256", .str ['c']), ("native_packets", .arr [.obj [("_source", .obj [("layers",
      .obj [("tcp", .obj [("tcp.stream", .str ['0'])])])])]]),
    ("packets", .arr [.obj [("id", .str "c:1")]]),
    ("provenance", .null)]

def sampleProfile : Text := "eea3c57761b9d89189bb95abf401dd12613038ca3a587ecc057c624a5a4490e3"

/-- The digests of the texts that are hashed for the capture. -/
def sampleSha256 (t : Text) : Text :=
  if t = (Json.arr [.str "indago.wireshark-stream-profile.v1", .str ['c'], .null,
      .str "one-pass offline dissection; name resolution disabled; upstream defaults"]).dump then
    sampleProfile
  else if t = (Json.arr [.str sampleProfile, .str "tcp", .str ['0']]).dump then
    "e540b739a23eaccf6d8f9d7ff1e028c7737964da80cce1c86ee6995cd5c4c955"
  else t

def sampleStream : Text := "stream_e540b739a23eaccf6d8f9d7ff1e028c7737964da80cce1c86ee6995cd5c4c955"

def sampleProjection : StreamProjection where
  profile := sampleProfile
  captureHash := ['c']
  packets := [⟨[("id", .str "c:1")], .str "c:1", ⟨3, [], false⟩,
    [⟨sampleStream, "tcp", ['0'], "/native_packets/0/_source/layers/tcp/tcp.stream"⟩],
    false⟩]
  streams := [⟨sampleStream, "tcp", ['0'], [.str "c:1"]⟩]

theorem sample_profile : captureProfile sampleSha256 (.str ['c']) .null = sampleProfile := by
  unfold captureProfile sampleSha256
  exact if_pos rfl

theorem sampleCapture_distinct : KeysDistinct sampleCapture := by
  have hone : ∀ (key : Text) {v : Json}, KeysDistinct v → KeysDistinct (.obj [(key, v)]) :=
    fun key _ hv => KeysDistinct.obj (nodup_singleton _) (forall_mem_singleton.mpr hv)
  have harr : ∀ {v : Json}, KeysDistinct v → KeysDistinct (.arr [v]) := fun hv =>
    KeysDistinct.arr (forall_mem_singleton.mpr hv)
  refine KeysDistinct.obj (by decide) ?_
  simp only [forall_mem_cons]
  exact ⟨KeysDistinct.str _, harr (hone _ (hone _ (hone _ (hone _ (KeysDistinct.str _))))),
    harr (hone _ (KeysDistinct.str _)), KeysDistinct.null, forall_mem_nil _⟩

variable (transport number : Text)

theorem sample_texts : (Json.arr [.str sampleProfile, .str transport, .str number]).dump =
      ('[' :: Json.quoted sampleProfile ++ [',']) ++
        (Json.quoted transport ++ ',' :: (Json.quoted number ++ [']'])) := by
  simp only [Json.dump, Json.dumpItems, append_assoc, cons_append, nil_append]

theorem sample_not_profile : (Json.arr [.str sampleProfile, .str transport, .str number]).dump ≠
      (Json.arr [.str "indago.wireshark-stream-profile.v1", .str ['c'], .null,
        .str "one-pass offline dissection; name resolution disabled; upstream defaults"]).dump := by
  intro h
  rw [sample_texts] at h
  injection h with _ hrest
  injection hrest with _ hrest
  injection hrest with hclash
  revert hclash
  decide

theorem sample_ids (n m : Text) : streamId sampleSha256 sampleProfile "tcp" n ≠
    streamId sampleSha256 sampleProfile "udp" m := by
  have hdifferent : ∀ a b : Text,
      (Json.arr [.str sampleProfile, .str "tcp", .str a]).dump ≠
        (Json.arr [.str sampleProfile, .str "udp", .str b]).dump := by
    intro a b h
    rw [sample_texts, sample_texts, append_cancel_left_eq] at h
    injection h with _ hrest
    injection hrest with hclash
    revert hclash
    decide
  intro h
  unfold streamId at h
  rw [append_cancel_left_eq] at h
  unfold sampleSha256 at h
  have hudp : ¬ (Json.arr [.str sampleProfile, .str "udp", .str m]).dump =
      (Json.arr [.str sampleProfile, .str "tcp", .str ['0']]).dump :=
    fun hsame => hdifferent _ _ hsame.symm
  rw [if_neg (sample_not_profile _ _), if_neg (sample_not_profile _ _), if_neg hudp] at h
  by_cases htcp : (Json.arr [.str sampleProfile, .str "tcp", .str n]).dump =
      (Json.arr [.str sampleProfile, .str "tcp", .str ['0']]).dump
  · rw [if_pos htcp, sample_texts] at h
    injection h with hclash
    revert hclash
    decide
  · rw [if_neg htcp] at h
    exact hdifferent _ _ h

theorem sample_stream : streamId sampleSha256 sampleProfile "tcp" ['0'] = sampleStream := by
  unfold streamId sampleSha256
  rw [if_neg (sample_not_profile _ _), if_pos rfl]
  rfl

theorem sampleProjection_eq :
    projectPacketStreams sampleSha256 sampleCapture = .ok sampleProjection := by
  have hpacket : projectPacket sampleSha256 sampleCapture sampleProfile 0
      (.obj [("id", .str "c:1")]) =
      .ok ⟨[("id", .str "c:1")], .str "c:1", ⟨3, [], false⟩,
        [⟨streamId sampleSha256 sampleProfile "tcp" ['0'], "tcp", ['0'],
          "/native_packets/0/_source/layers/tcp/tcp.stream"⟩], false⟩ := rfl
  rw [sample_stream] at hpacket
  show (do
    let read ← projectPackets sampleSha256 sampleCapture
      (captureProfile sampleSha256 (.str ['c']) .null) [.obj [("id", .str "c:1")]] 0 []
    pure ⟨captureProfile sampleSha256 (.str ['c']) .null, ['c'], read.1, read.2⟩ :
      Access StreamProjection) = _
  rw [sample_profile, projectPackets, hpacket]
  rfl

theorem projectPacketStreams_correct_sample :
    projectPacketStreams sampleSha256 sampleCapture = .ok sampleProjection ∧
      SeparateStreams sampleSha256 sampleProfile ∧
      sampleProjection.Correct sampleSha256 sampleCapture :=
  ⟨sampleProjection_eq, fun _ _ _ _ => sample_ids _ _,
    projectPacketStreams_correct sampleCapture_distinct sampleProjection_eq⟩

end Indago
