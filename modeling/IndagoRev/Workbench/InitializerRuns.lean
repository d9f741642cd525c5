import IndagoRev.Workbench.Sha256Digest
import IndagoRev.Workbench.InitializerProof

/-!
# An accepted initializer fills the buffer it calls

While the line is followed, `ebp` and `esp` stay where the frame was opened, every recorded byte
stands at its displacement, and every recorded register holds its constant or points at its
displacement.
-/

namespace Indago

open StdText SecureHash List

/-- The decoder reads `push ebp` and `mov ebp, esp`, in both of its encodings. -/
structure DecodesFrame (xair : X86Decoder) : Prop where
  push : ∀ rest offset, ∃ i, xair (0x55 :: rest) offset = some i ∧ i.mnemonic = .push ∧
    i.operand0.value = .register { parent := x86Rbp, width := 32 } ∧ i.length = 1 ∧
    i.fallthrough = offset + 1 ∧ i.error = false
  mov : ∀ rest offset, ∀ pair ∈ [[0x89, 0xe5], [0x8b, 0xec]], ∃ i,
    xair (pair ++ rest) offset = some i ∧ i.mnemonic = .mov ∧
    i.operand0.value = .register { parent := x86Rbp, width := 32 } ∧
    i.operand1.value = .register { parent := x86Rsp, width := 32 } ∧ i.length = 2 ∧
    i.fallthrough = offset + 2 ∧ i.error = false

/-- What is known of a line in a frame holds of a state. -/
structure InitializerFacts.Hold (facts : InitializerFacts) (frame : Int) (ebp : BitVec 32)
    (s : X86State) : Prop where
  rbp : s.regs x86Rbp = ebp
  rsp : s.regs x86Rsp = ebp - BitVec.ofInt 32 frame
  stores : ∀ e ∈ facts.stores, -frame ≤ e.1 ∧ e.1 < 0 ∧ s.mem (ebp + BitVec.ofInt 32 e.1) = e.2
  constants : ∀ r c, facts.constants r = some c → s.regs r = c
  pointers : ∀ r p, facts.pointers r = some p → s.regs r = ebp + BitVec.ofInt 32 p

section Step

variable {facts facts' : InitializerFacts} {frame : Int} {ebp : BitVec 32} {s : X86State}
  {i : X86Inst} {recovery : InitializerRecovery} {offset : Nat}

theorem InitializerFacts.Hold.eip (h : facts.Hold frame ebp s) (offset : Nat) :
    facts.Hold frame ebp { s with eip := offset } :=
  ⟨h.rbp, h.rsp, h.stores, h.constants, h.pointers⟩

theorem isFree_eq {r : X86Register} (h : r.isFree = true) :
    r.parent ≠ x86Rbp ∧ r.parent ≠ x86Rsp ∧ r.isPart 32 = true := by
  unfold X86Register.isFree at h
  rw [Bool.and_eq_true, Bool.and_eq_true, bne_iff_ne, bne_iff_ne] at h
  exact ⟨h.1.1, h.1.2, h.2⟩

variable {r : Nat}

theorem InitializerFacts.Hold.set (h : facts.Hold frame ebp s) {v : BitVec 32}
    (hbp : r ≠ x86Rbp) (hsp : r ≠ x86Rsp) (constant : Option (BitVec 32)) (pointer : Option Int)
    (hc : ∀ c, constant = some c → v = c)
    (hp : ∀ p, pointer = some p → v = ebp + BitVec.ofInt 32 p) : InitializerFacts.Hold { facts with
        constants := Function.update facts.constants r constant
        pointers := Function.update facts.pointers r pointer }
      frame ebp { s with regs := Function.update s.regs r v } := by
  refine ⟨?_, ?_, h.stores, ?_, ?_⟩
  · exact (Function.update_of_ne hbp.symm _ _).trans h.rbp
  · exact (Function.update_of_ne hsp.symm _ _).trans h.rsp
  · intro q c hq
    by_cases hqr : q = r
    · subst hqr
      dsimp only at hq ⊢
      rw [Function.update_self] at hq ⊢
      exact hc c hq
    · dsimp only at hq ⊢
      rw [Function.update_of_ne hqr] at hq ⊢
      exact h.constants q c hq
  · intro q p hq
    by_cases hqr : q = r
    · subst hqr
      dsimp only at hq ⊢
      rw [Function.update_self] at hq ⊢
      exact hp p hq
    · dsimp only at hq ⊢
      rw [Function.update_of_ne hqr] at hq ⊢
      exact h.pointers q p hq

theorem offsetOf_ofFrame (h : facts.Hold frame ebp s) {m : X86Memory} (hm : m.ofFrame = true)
    (hplain : i.attributes.prefixed = false) :
    s.offsetOf i.attributes m = ebp + BitVec.ofInt 32 m.displacement ∧
      s.addressOf i.attributes m = ebp + BitVec.ofInt 32 m.displacement := by
  have hsize : i.attributes.addressSize = false := by
    unfold X86Attributes.prefixed at hplain
    cases ha : i.attributes.addressSize with
    | false => rfl
    | true => rw [ha] at hplain; cases hplain
  have hsegment : i.attributes.segment = false := by
    unfold X86Attributes.prefixed at hplain
    cases hs : i.attributes.segment with
    | false => rfl
    | true => rw [hs] at hplain; simp at hplain
  unfold X86Memory.ofFrame at hm
  rw [Bool.and_eq_true, Option.isNone_iff_eq_none] at hm
  obtain ⟨hbase, hindex⟩ := hm
  have hoffset : s.offsetOf i.attributes m = ebp + BitVec.ofInt 32 m.displacement := by
    unfold X86State.offsetOf
    rw [hsize, hindex]
    cases hb : m.base with
    | none => rw [hb] at hbase; cases hbase
    | some b =>
      rw [hb] at hbase
      have hparent : b.parent = x86Rbp := beq_iff_eq.mp hbase
      simp only [X86State.registerOr, hparent, h.rbp, Bool.false_eq_true, if_false]
      simp
  refine ⟨hoffset, ?_⟩
  unfold X86State.addressOf
  rw [hoffset, hsegment]
  simp

theorem hold_constantMove (h : facts.Hold frame ebp s) {c : BitVec 32}
    (hmove : constantMove i = some (r, c)) :
    ∃ s', s.execute i = some s' ∧ InitializerFacts.Hold { facts with
        constants := Function.update facts.constants r (some c)
        pointers := Function.update facts.pointers r none } frame ebp s' := by
  unfold constantMove at hmove
  split at hmove
  · rename_i q imm hdst hsrc
    split at hmove
    · rename_i hguard
      obtain ⟨hmov, -, hfree⟩ := hguard
      cases hmove
      obtain ⟨hbp, hsp, hpart⟩ := isFree_eq hfree
      refine ⟨_, ?_, h.set hbp hsp (some (BitVec.ofInt 32 imm)) none
        (v := BitVec.ofInt 32 imm) (fun c hc => Option.some.inj hc) (fun p hp => nomatch hp)⟩
      unfold X86State.execute
      rw [hmov]
      dsimp only
      unfold X86State.read X86State.write
      rw [hsrc, hdst]
      dsimp only
      rw [Option.bind_some, if_pos (isPart_eq hpart).1, writeRegister_whole hpart]
    · cases hmove
  · cases hmove

theorem hold_framePointer (h : facts.Hold frame ebp s) (hplain : i.attributes.prefixed = false)
    {p : Int} (hlea : framePointer frame i = some (r, p)) :
    ∃ s', s.execute i = some s' ∧ InitializerFacts.Hold { facts with
        pointers := Function.update facts.pointers r (some p)
        constants := Function.update facts.constants r none } frame ebp s' := by
  unfold framePointer at hlea
  split at hlea
  · rename_i q m hdst hsrc
    split at hlea
    · rename_i hguard
      obtain ⟨hmnemonic, hfree, hframe, -, -⟩ := hguard
      cases hlea
      obtain ⟨hbp, hsp, hpart⟩ := isFree_eq hfree
      refine ⟨_, ?_, h.set hbp hsp none (some m.displacement)
        (v := ebp + BitVec.ofInt 32 m.displacement) (fun c hc => nomatch hc)
        (fun p hp => by rw [Option.some.inj hp])⟩
      unfold X86State.execute
      rw [hmnemonic]
      dsimp only
      unfold X86State.write
      rw [hsrc, hdst]
      dsimp only
      rw [if_pos (isPart_eq hpart).1, (offsetOf_ofFrame h hframe hplain).1,
        writeRegister_whole hpart]
    · cases hlea
  · cases hlea

theorem read_storedByte (h : facts.Hold frame ebp s) {v : UInt8}
    (hbyte : storedByte facts i = some v) :
    ∃ w, s.read i.attributes i.operand1 = some w ∧ lowByte w = v := by
  unfold storedByte at hbyte
  unfold X86State.read
  split at hbyte
  · rename_i imm hsrc
    cases hbyte
    rw [hsrc]
    exact ⟨_, rfl, rfl⟩
  · rename_i r hsrc
    split at hbyte
    · rename_i hpart
      obtain ⟨c, hc, rfl⟩ := Option.map_eq_some_iff.mp hbyte
      rw [hsrc]
      refine ⟨_, if_pos (isPart_eq hpart).1, ?_⟩
      rw [lowByte_readRegister hpart, h.constants _ _ hc]
    · cases hbyte
  · cases hbyte

theorem hold_byteStore (h : facts.Hold frame ebp s) (hframe : frame ≤ 65536)
    (hplain : i.attributes.prefixed = false) {d : Int} (hstore : byteStore i = some d)
    (hrecord : recordStore frame facts i d = .ok facts') :
    ∃ s', s.execute i = some s' ∧ facts'.Hold frame ebp s' := by
  unfold byteStore at hstore
  split at hstore
  · rename_i m hdst
    split at hstore
    · rename_i hguard
      obtain ⟨hmov, -, hsize, hof⟩ := hguard
      cases hstore
      unfold recordStore at hrecord
      split at hrecord
      · cases hrecord
      rename_i hinside
      rw [not_or, not_or, Int.not_le, Int.not_lt] at hinside
      obtain ⟨hneg, hlow, hnew⟩ := hinside
      cases hbyte : storedByte facts i with
      | none =>
        rw [hbyte] at hrecord
        cases hrecord
      | some v =>
        rw [hbyte] at hrecord
        cases hrecord
        obtain ⟨w, hread, rfl⟩ := read_storedByte h hbyte
        let mem := Function.update s.mem (ebp + BitVec.ofInt 32 m.displacement) (lowByte w)
        refine ⟨{ s with mem := mem }, ?_, h.rbp, h.rsp, ?_, h.constants, h.pointers⟩
        · unfold X86State.execute
          rw [hmov]
          dsimp only
          rw [hread, Option.bind_some]
          unfold X86State.write
          rw [hdst]
          dsimp only
          rw [hsize, (offsetOf_ofFrame h hof hplain).2]
          rfl
        · intro e he
          rcases (mem_orderedInsert _).mp he with rfl | he
          · exact ⟨hlow, hneg, Function.update_self _ (lowByte w) s.mem⟩
          · obtain ⟨hle, hlt, hmem⟩ := h.stores e he
            refine ⟨hle, hlt, ?_⟩
            have hne : e.1 ≠ m.displacement := by
              intro heq
              exact hnew (heq ▸ mem_map_of_mem he)
            have hother := displacement_ne (by omega) hlt (by omega) hneg hne ebp
            exact (Function.update_of_ne hother (lowByte w) s.mem).trans hmem
    · cases hstore
  · cases hstore

theorem hold_step (h : facts.Hold frame ebp s) (hframe : frame ≤ 65536)
    (hstep : initializerStep frame recovery offset i facts = .ok (.next facts')) :
    ∃ s', s.execute i = some s' ∧ facts'.Hold frame ebp s' := by
  unfold initializerStep at hstep
  split at hstep
  · cases hstep
  rename_i hplain
  have hplain : i.attributes.prefixed = false := Bool.eq_false_iff.mpr hplain
  split at hstep
  · rename_i hnop
    cases hstep
    refine ⟨s, ?_, h⟩
    unfold X86State.execute
    rw [hnop.1]
  split at hstep
  · rename_i r c hmove
    cases hstep
    exact hold_constantMove h hmove
  split at hstep
  · rename_i d hstore
    cases hrecord : recordStore frame facts i d with
    | error e =>
      rw [hrecord] at hstep
      cases hstep
    | ok stored =>
      rw [hrecord] at hstep
      cases hstep
      exact hold_byteStore h hframe hplain hstore hrecord
  · split at hstep
    · rename_i r p hlea
      cases hstep
      exact hold_framePointer h hplain hlea
    split at hstep
    · rename_i p hcall
      cases hprove : proveBuffer recovery facts.stores p offset with
      | error e =>
        rw [hprove] at hstep
        cases hstep
      | ok proof =>
        rw [hprove] at hstep
        cases hstep
    · cases hstep

end Step

/-- A state before the call of a buffer in the frame of `ebp`, which holds an input. -/
structure CallsBuffer (xair : X86Decoder) (bytes : Bytes) (recovery : InitializerRecovery)
    (proof : InitializerProof) (frame : Int) (ebp : BitVec 32) (input : Bytes) (s : X86State) :
    Prop where
  eip : s.eip = proof.callOffset
  call : ∃ i r, recoveryDecode xair bytes s.eip = some i ∧ i.flow = .indirectCall ∧
    i.operand0.value = .register r ∧ r.isPart 32 = true ∧
    s.readRegister r = ebp + BitVec.ofInt 32 proof.bufferEbpDisplacement
  opened : s.regs x86Rbp = ebp ∧ s.regs x86Rsp = ebp - BitVec.ofInt 32 frame
  size : input.length = recovery.inputSize ∧ proof.storeCount = input.length
  hashed : (digest input).flatMap hexPair = recovery.inputSha256 ∧
    proof.inputSha256 = recovery.inputSha256
  holds : ∀ (k : Nat) (b : UInt8), input[k]? = some b →
    s.mem (ebp + BitVec.ofInt 32 (proof.bufferEbpDisplacement + (k : Int))) = b
  inside : -frame ≤ proof.bufferEbpDisplacement ∧
    proof.bufferEbpDisplacement + (input.length : Int) ≤ 0

theorem sha256Text_digest {bytes : Bytes} (h : bytes.length < 2 ^ 61) :
    sha256Text bytes = (SecureHash.digest bytes).flatMap hexPair := by
  have hstart : Sha256.start.Holds [] := ⟨took_start, rfl⟩
  have htaken : (Sha256.start.update bytes).Holds ([] ++ bytes) := hstart.update
  rw [nil_append] at htaken
  unfold sha256Text
  rw [htaken.finish h]

theorem holeFree_getElem {offset : Int} {stores : List (Int × UInt8)}
    (h : holeFree offset stores = true) {k : Nat} {e : Int × UInt8} (hk : stores[k]? = some e) :
    e.1 = offset + (k : Int) := by
  induction stores generalizing offset k with
  | nil => cases hk
  | cons store stores ih =>
    obtain ⟨address, value⟩ := store
    unfold holeFree at h
    rw [Bool.and_eq_true, beq_iff_eq] at h
    cases k with
    | zero =>
      cases hk
      rw [h.1]
      simp
    | succ k =>
      rw [getElem?_cons_succ] at hk
      rw [ih h.2 hk]
      push_cast
      omega

section Line

variable {xair : X86Decoder} {bytes : Bytes} {facts : InitializerFacts} {frame : Int}
  {ebp : BitVec 32} {s : X86State} {i : X86Inst} {recovery : InitializerRecovery} {offset : Nat}
  {proof : InitializerProof}

theorem callsBuffer_proveBuffer (h : facts.Hold frame ebp s) (hframe : frame ≤ 65536)
    (hdecode : recoveryDecode xair bytes s.eip = some i) {p : Int}
    (hcall : pointerCall facts i = some p)
    (hprove : proveBuffer recovery facts.stores p s.eip = .ok proof) :
    CallsBuffer xair bytes recovery proof frame ebp (facts.stores.map Prod.snd) s := by
  unfold proveBuffer at hprove
  cases hstores : facts.stores with
  | nil =>
    rw [hstores] at hprove
    cases hprove
  | cons store rest =>
    obtain ⟨first, value⟩ := store
    rw [hstores] at hprove
    dsimp only at hprove
    split at hprove
    · cases hprove
    rename_i hsizes
    rw [not_or, not_or, not_not, not_not, not_not] at hsizes
    obtain ⟨hsize, hpointer, -⟩ := hsizes
    split at hprove
    · cases hprove
    rename_i hhole
    have hhole : holeFree first facts.stores = true := by
      rw [hstores]
      exact Bool.not_eq_false _ ▸ hhole
    split at hprove
    · cases hprove
    rename_i hsha
    rw [not_not] at hsha
    cases hprove
    subst hpointer
    rw [← hstores] at hsize hsha ⊢
    have hfirst : -frame ≤ p ∧ p < 0 := by
      have hmem := h.stores (p, value) (by rw [hstores]; exact mem_cons_self)
      exact ⟨hmem.1, hmem.2.1⟩
    have hlast : p + (facts.stores.length : Int) ≤ 0 := by
      have hpos : 0 < facts.stores.length := by rw [hstores]; exact Nat.succ_pos _
      have hlt : facts.stores.length - 1 < facts.stores.length := by omega
      have hget := getElem?_eq_getElem hlt
      have haddress := holeFree_getElem hhole hget
      have hneg := (h.stores _ (getElem_mem hlt)).2.1
      rw [haddress] at hneg
      omega
    have hregister : ∃ r, i.flow = .indirectCall ∧ i.operand0.value = .register r ∧
        r.isPart 32 = true ∧ facts.pointers r.parent = some p := by
      unfold pointerCall at hcall
      split at hcall
      · rename_i r hvalue
        split at hcall
        · rename_i hguard
          exact ⟨r, hguard.1, hvalue, hguard.2, hcall⟩
        · cases hcall
      · cases hcall
    obtain ⟨r, hflow, hvalue, hpart, hpoints⟩ := hregister
    refine ⟨rfl, ⟨i, r, hdecode, hflow, hvalue, hpart, ?_⟩, ⟨h.rbp, h.rsp⟩, ⟨?_, ?_⟩,
      ⟨?_, rfl⟩, ?_, ⟨hfirst.1, ?_⟩⟩
    · rw [readRegister_whole hpart, h.pointers _ _ hpoints]
    · rw [length_map]
      exact hsize
    · rw [length_map]
    · rw [← sha256Text_digest (by rw [length_map]; omega)]
      exact hsha
    · intro k b hk
      rw [getElem?_map] at hk
      obtain ⟨e, he, rfl⟩ := Option.map_eq_some_iff.mp hk
      have haddress := holeFree_getElem hhole he
      rw [← haddress]
      exact (h.stores e (mem_of_getElem? he)).2.2
    · rw [length_map]
      exact hlast

theorem callsBuffer_step (h : facts.Hold frame ebp s) (hframe : frame ≤ 65536)
    (hdecode : recoveryDecode xair bytes s.eip = some i)
    (hstep : initializerStep frame recovery s.eip i facts = .ok (.proved proof)) :
    CallsBuffer xair bytes recovery proof frame ebp (facts.stores.map Prod.snd) s := by
  unfold initializerStep at hstep
  split at hstep
  · cases hstep
  split at hstep
  · cases hstep
  split at hstep
  · cases hstep
  split at hstep
  · rename_i d _
    cases hrecord : recordStore frame facts i d with
    | error e =>
      rw [hrecord] at hstep
      cases hstep
    | ok stored =>
      rw [hrecord] at hstep
      cases hstep
  · split at hstep
    · cases hstep
    split at hstep
    · rename_i p hcall
      cases hprove : proveBuffer recovery facts.stores p s.eip with
      | error e =>
        rw [hprove] at hstep
        cases hstep
      | ok proved =>
        rw [hprove] at hstep
        cases hstep
        exact callsBuffer_proveBuffer h hframe hdecode hcall hprove
    · cases hstep

theorem initializerRun_next {n : Nat} {facts' : InitializerFacts} (hinside : offset < bytes.length)
    (hsmall : offset < 16384) (hdecode : recoveryDecode xair bytes offset = some i)
    (hstep : initializerStep frame recovery offset i facts = .ok (.next facts')) :
    initializerRun xair bytes frame recovery (n + 1) offset facts =
      initializerRun xair bytes frame recovery n i.fallthrough facts' := by
  have hin : ¬(bytes.length ≤ offset ∨ 16384 ≤ offset) := by omega
  rw [initializerRun, if_neg hin, hdecode]
  dsimp only
  rw [hstep]

theorem initializerRun_proved {n : Nat} (hinside : offset < bytes.length)
    (hsmall : offset < 16384) (hdecode : recoveryDecode xair bytes offset = some i)
    (hstep : initializerStep frame recovery offset i facts = .ok (.proved proof)) :
    initializerRun xair bytes frame recovery (n + 1) offset facts = .ok proof := by
  have hin : ¬(bytes.length ≤ offset ∨ 16384 ≤ offset) := by omega
  rw [initializerRun, if_neg hin, hdecode]
  dsimp only
  rw [hstep]

theorem callsBuffer_run (n : Nat) (h : facts.Hold frame ebp s) (hframe : frame ≤ 65536)
    (hrun : initializerRun xair bytes frame recovery n s.eip facts = .ok proof) :
    ∃ k s' input, s.steps xair bytes k = some s' ∧
      CallsBuffer xair bytes recovery proof frame ebp input s' := by
  induction n generalizing s facts with
  | zero => cases hrun
  | succ n ih =>
    unfold initializerRun at hrun
    split at hrun
    · cases hrun
    cases hdecode : recoveryDecode xair bytes s.eip with
    | none =>
      rw [hdecode] at hrun
      cases hrun
    | some i =>
      rw [hdecode] at hrun
      dsimp only at hrun
      cases hstep : initializerStep frame recovery s.eip i facts with
      | error e =>
        rw [hstep] at hrun
        cases hrun
      | ok outcome =>
        rw [hstep] at hrun
        cases outcome with
        | proved proved =>
          cases hrun
          exact ⟨0, s, _, rfl, callsBuffer_step h hframe hdecode hstep⟩
        | next facts' =>
          obtain ⟨s', hexecute, hhold⟩ := hold_step h hframe hstep
          obtain ⟨k, t, input, hsteps, hcalls⟩ :=
            ih (s := { s' with eip := i.fallthrough }) (hhold.eip _) hrun
          refine ⟨k + 1, t, input, ?_, hcalls⟩
          unfold X86State.steps
          rw [step_of_execute hdecode hexecute, Option.bind_some]
          exact hsteps

theorem opens_frame (hx : DecodesFrame xair) (hbytes : framePrologue bytes = true)
    (hstart : s.eip = 0) :
    ∃ s', s.steps xair bytes 2 = some s' ∧ s'.eip = 3 ∧ s'.regs x86Rbp = s.regs x86Rsp - 4 ∧
      s'.regs x86Rsp = s.regs x86Rsp - 4 := by
  unfold framePrologue at hbytes
  rw [Bool.and_eq_true, Bool.and_eq_true, decide_eq_true_eq, beq_iff_eq, Bool.or_eq_true,
    beq_iff_eq, beq_iff_eq] at hbytes
  obtain ⟨⟨hlength, hfirst⟩, hpair⟩ := hbytes
  have hpush : bytes.drop 0 = 0x55 :: bytes.drop 1 := by
    rw [drop_zero]
    calc bytes = bytes.take 1 ++ bytes.drop 1 := (take_append_drop 1 bytes).symm
      _ = 0x55 :: bytes.drop 1 := by rw [hfirst]; rfl
  obtain ⟨i, hi, himnemonic, hivalue, hilength, hinext, hierror⟩ := hx.push (bytes.drop 1) 0
  have hmem : (bytes.drop 1).take 2 ∈ [[0x89, 0xe5], [0x8b, 0xec]] := by
    rw [mem_cons, mem_singleton]
    exact hpair
  obtain ⟨j, hj, hjmnemonic, hjdst, hjsrc, hjlength, hjnext, hjerror⟩ :=
    hx.mov ((bytes.drop 1).drop 2) 1 _ hmem
  rw [take_append_drop] at hj
  have hdecodei : recoveryDecode xair bytes s.eip = some i := by
    rw [hstart]
    exact recoveryDecode_of_xair (by omega) (hpush ▸ hi) (by omega) (by omega) hierror
  have hdecodej : recoveryDecode xair bytes 1 = some j :=
    recoveryDecode_of_xair (by omega) hj (by omega) (by omega) hjerror
  have hexecutei : s.execute i = some (s.push (s.regs x86Rbp)) := by
    unfold X86State.execute
    rw [himnemonic]
    dsimp only
    unfold X86State.read
    rw [hivalue]
    dsimp only
    rw [if_pos rfl, readRegister_whole rfl, Option.map_some]
  let pushed : X86State := { s.push (s.regs x86Rbp) with eip := i.fallthrough }
  have hexecutej : pushed.execute j = some { pushed with
      regs := Function.update pushed.regs x86Rbp (pushed.regs x86Rsp) } := by
    unfold X86State.execute
    rw [hjmnemonic]
    dsimp only
    unfold X86State.read X86State.write
    rw [hjdst, hjsrc]
    dsimp only
    rw [if_pos rfl, Option.bind_some, if_pos rfl, readRegister_whole rfl, writeRegister_whole rfl]
  have hsecond : pushed.eip = 1 := hinext
  have hpushed : pushed.regs x86Rsp = s.regs x86Rsp - 4 := by
    show Function.update s.regs x86Rsp (s.regs x86Rsp - 4) x86Rsp = _
    rw [Function.update_self]
  let opened := Function.update pushed.regs x86Rbp (pushed.regs x86Rsp)
  refine ⟨{ pushed with regs := opened, eip := j.fallthrough }, ?_, ?_, ?_, ?_⟩
  · unfold X86State.steps
    rw [step_of_execute hdecodei hexecutei, Option.bind_some]
    unfold X86State.steps
    rw [step_of_execute (s := pushed) (by rw [hsecond]; exact hdecodej) hexecutej,
      Option.bind_some]
    rfl
  · exact hjnext
  · show Function.update pushed.regs x86Rbp (pushed.regs x86Rsp) x86Rbp = _
    rw [Function.update_self, hpushed]
  · show Function.update pushed.regs x86Rbp (pushed.regs x86Rsp) x86Rsp = _
    rw [Function.update_of_ne (by decide), hpushed]

theorem hold_frameAllocation {alloc : X86Inst} (halloc : frameAllocation alloc = some frame)
    (hbp : s.regs x86Rbp = ebp) (hsp : s.regs x86Rsp = ebp) :
    ∃ s', s.execute alloc = some s' ∧ InitializerFacts.Hold {} frame ebp s' := by
  unfold frameAllocation at halloc
  split at halloc
  · rename_i r imm hdst hsrc
    split at halloc
    · rename_i hguard
      obtain ⟨hsub, hparent, hpart⟩ := hguard
      cases halloc
      refine ⟨{ s with regs := Function.update s.regs x86Rsp (ebp - BitVec.ofInt 32 frame) }, ?_,
        ?_, ?_, forall_mem_nil _, (fun r c hr => nomatch hr), (fun r p hr => nomatch hr)⟩
      · unfold X86State.execute
        rw [hsub]
        dsimp only
        unfold X86State.read X86State.write
        rw [hdst, hsrc]
        dsimp only
        rw [if_pos (isPart_eq hpart).1, Option.bind_some, Option.bind_some,
          if_pos (isPart_eq hpart).1, readRegister_whole hpart, writeRegister_whole hpart, hparent,
          hsp]
      · show Function.update s.regs x86Rsp (ebp - BitVec.ofInt 32 frame) x86Rbp = _
        rw [Function.update_of_ne (by decide), hbp]
      · show Function.update s.regs x86Rsp (ebp - BitVec.ofInt 32 frame) x86Rsp = _
        rw [Function.update_self]
    · cases halloc
  · cases halloc

end Line

/-- An accepted initializer, run from its first byte on any registers and memory, comes to the
recorded call.  The frame then holds the input at the recorded displacement, and the called
register is the address of its first byte. -/
theorem initializer_sound {xair : X86Decoder} (hx : DecodesFrame xair) {bytes : Bytes}
    {recovery : InitializerRecovery} {proof : InitializerProof}
    (h : recoveryNativeInitializer xair bytes recovery = .ok proof) {s : X86State}
    (hstart : s.eip = 0) :
    ∃ k s' frame input, s.steps xair bytes k = some s' ∧ 16 ≤ frame ∧ frame ≤ 65536 ∧
      CallsBuffer xair bytes recovery proof frame (s.regs x86Rsp - 4) input s' := by
  unfold recoveryNativeInitializer at h
  split at h
  · cases h
  rename_i hprologue
  obtain ⟨t, ht, heip, hbp, hsp⟩ :=
    opens_frame hx (Bool.not_eq_false _ ▸ hprologue) hstart
  cases hdecode : recoveryDecode xair bytes 3 with
  | none =>
    rw [hdecode] at h
    cases h
  | some alloc =>
    rw [hdecode] at h
    dsimp only at h
    cases halloc : frameAllocation alloc with
    | none =>
      rw [halloc] at h
      cases h
    | some frame =>
      rw [halloc] at h
      dsimp only at h
      split at h
      · cases h
      rename_i hbound
      rw [not_or, Int.not_lt, Int.not_lt] at hbound
      obtain ⟨u, hexecute, hhold⟩ := hold_frameAllocation halloc hbp hsp
      have hstep := step_of_execute (heip.symm ▸ hdecode) hexecute
      obtain ⟨k, v, input, hv, hcalls⟩ := callsBuffer_run (s :=
        { u with eip := alloc.fallthrough }) 16384 (hhold.eip _) hbound.2 h
      refine ⟨2 + (k + 1), v, frame, input, steps_add ht ?_, hbound.1, hbound.2, hcalls⟩
      unfold X86State.steps
      rw [hstep, Option.bind_some]
      exact hv

/-- A decoder of the encodings in a short initializer. -/
def shortDecoder : X86Decoder
  | 0x55 :: _, offset => some {
      mnemonic := .push, operand0 := ⟨.register { parent := x86Rbp, width := 32 }, 32⟩
      length := 1, fallthrough := offset + 1 }
  | 0x89 :: 0xe5 :: _, offset | 0x8b :: 0xec :: _, offset => some {
      mnemonic := .mov, operand0 := ⟨.register { parent := x86Rbp, width := 32 }, 32⟩
      operand1 := ⟨.register { parent := x86Rsp, width := 32 }, 32⟩
      length := 2, fallthrough := offset + 2 }
  | 0x83 :: 0xec :: imm :: _, offset => some {
      mnemonic := .sub, operand0 := ⟨.register { parent := x86Rsp, width := 32 }, 32⟩
      operand1 := ⟨.immediate imm.toInt8.toInt, 8⟩
      length := 3, fallthrough := offset + 3 }
  | 0xc6 :: 0x45 :: d :: imm :: _, offset => some {
      mnemonic := .mov
      operand0 := ⟨.memory {
        base := some { parent := x86Rbp, width := 32 }, displacement := d.toInt8.toInt }, 8⟩
      operand1 := ⟨.immediate imm.toNat, 8⟩
      length := 4, fallthrough := offset + 4 }
  | 0x8d :: 0x45 :: d :: _, offset => some {
      mnemonic := .lea, operand0 := ⟨.register { parent := 0, width := 32 }, 32⟩
      operand1 := ⟨.memory {
        base := some { parent := x86Rbp, width := 32 }, displacement := d.toInt8.toInt }, 32⟩
      length := 3, fallthrough := offset + 3 }
  | 0xff :: 0xd0 :: _, offset => some {
      mnemonic := .call, flow := .indirectCall
      operand0 := ⟨.register { parent := 0, width := 32 }, 32⟩
      length := 2, fallthrough := offset + 2 }
  | _, _ => none

/-- One byte is stored at `ebp - 4`, and called. -/
def shortInitializer : Bytes :=
  [0x55, 0x89, 0xe5, 0x83, 0xec, 0x10, 0xc6, 0x45, 0xfc, 0xc3, 0x8d, 0x45, 0xfc, 0xff, 0xd0]

def shortRecovery : InitializerRecovery where
  inputSize := 1
  localBase := 8
  inputSha256 := sha256Text [0xc3]

theorem shortDecoder_decodesFrame : DecodesFrame shortDecoder where
  push := fun rest offset => ⟨_, rfl, rfl, rfl, rfl, rfl, rfl⟩
  mov := by
    intro rest offset pair hpair
    rcases mem_cons.mp hpair with rfl | hpair
    · exact ⟨_, rfl, rfl, rfl, rfl, rfl, rfl, rfl⟩
    · rw [mem_singleton.mp hpair]
      exact ⟨_, rfl, rfl, rfl, rfl, rfl, rfl, rfl⟩

theorem shortInitializer_accepted :
    recoveryNativeInitializer shortDecoder shortInitializer shortRecovery = .ok {
      storeCount := 1
      bufferEbpDisplacement := -4
      callOffset := 13
      inputSha256 := shortRecovery.inputSha256 } := by
  have hsha : sha256Text ([((-4 : Int), (0xc3 : UInt8))].map Prod.snd) =
      shortRecovery.inputSha256 := by
    simp only [shortRecovery, map_cons, map_nil]
  have hprove : proveBuffer shortRecovery [(-4, 0xc3)] (-4) 13 = .ok {
      storeCount := 1
      bufferEbpDisplacement := -4
      callOffset := 13
      inputSha256 := shortRecovery.inputSha256 } := by
    unfold proveBuffer
    dsimp only
    rw [if_neg (by decide), if_neg (by decide), if_neg (fun h => h hsha)]
    rfl
  have halloc : recoveryDecode shortDecoder shortInitializer 3 = some {
      mnemonic := .sub, operand0 := ⟨.register { parent := x86Rsp, width := 32 }, 32⟩
      operand1 := ⟨.immediate 16, 8⟩, length := 3, fallthrough := 6 } := by decide
  have hstore : recoveryDecode shortDecoder shortInitializer 6 = some {
      mnemonic := .mov
      operand0 := ⟨.memory {
        base := some { parent := x86Rbp, width := 32 }, displacement := -4 }, 8⟩
      operand1 := ⟨.immediate 0xc3, 8⟩, length := 4, fallthrough := 10 } := by decide
  have hlea : recoveryDecode shortDecoder shortInitializer 10 = some {
      mnemonic := .lea, operand0 := ⟨.register { parent := 0, width := 32 }, 32⟩
      operand1 := ⟨.memory {
        base := some { parent := x86Rbp, width := 32 }, displacement := -4 }, 32⟩
      length := 3, fallthrough := 13 } := by decide
  have hcall : recoveryDecode shortDecoder shortInitializer 13 = some {
      mnemonic := .call, flow := .indirectCall
      operand0 := ⟨.register { parent := 0, width := 32 }, 32⟩
      length := 2, fallthrough := 15 } := by decide
  unfold recoveryNativeInitializer
  rw [if_neg (by decide), halloc]
  dsimp only [frameAllocation]
  rw [if_pos (by decide)]
  dsimp only
  rw [if_neg (by decide), initializerRun_next (n := 16383) (by decide) (by decide) hstore rfl,
    initializerRun_next (n := 16382) (by decide) (by decide) hlea rfl]
  exact initializerRun_proved (n := 16381) (by decide) (by decide) hcall
    (congrArg (Except.map InitializerStep.proved) hprove)

/-- The byte at `ebp - 4` is called. -/
theorem shortInitializer_sound : ∃ k s' frame input, X86State.steps shortDecoder shortInitializer k
        { regs := fun _ => 4096, mem := fun _ => 0 } = some s' ∧ 16 ≤ frame ∧ frame ≤ 65536 ∧
      CallsBuffer shortDecoder shortInitializer shortRecovery {
        storeCount := 1
        bufferEbpDisplacement := -4
        callOffset := 13
        inputSha256 := shortRecovery.inputSha256 } frame (4096 - 4) input s' :=
  initializer_sound shortDecoder_decodesFrame shortInitializer_accepted rfl

end Indago
