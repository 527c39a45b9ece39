import LiteNet.Manager.NestedMerges

/-! # Length fields behind the buffer

Where the second byte of a length field lies behind the buffer, the room that the loop
computes wraps around, and as many bytes are copied from there as the field says. If the
peer takes packets apart, these bytes may be merged packets deeper in each other than
any datagram.
-/

namespace LiteNet.Manager
open Library Wire

/-- The first byte of a merged packet. -/
def mergedHeader (number : UInt8) : UInt8 :=
  UInt8.ofNat PacketProperty.merged.code ||| number <<< (5 : UInt8)

/-- Merged packets that are `n` deep in each other. -/
def nested (header : UInt8) : ℕ → Bytes
  | 0 => []
  | n + 1 => header :: (leBytes 2 (3 * n) ++ nested header n)

theorem length_nested (header : UInt8) (n : ℕ) : (nested header n).length = 3 * n := by
  induction n with
  | zero => rfl
  | succ n ih =>
    rw [nested, List.length_cons, List.length_append, length_leBytes, ih]
    omega

namespace NetManager

variable {memory other : Memory} {m m' m'' : NetManager} {r : PeerRef} {packet : NetPacket}
  {pos n depth depth' : ℕ}

theorem Unpacks.clean (h : Unpacks memory r m packet m' depth) : Clean m → Clean m' := by
  refine @Unpacks.rec memory r (fun m _ m' _ _ => Clean m → Clean m')
    (fun _ _ m m' _ _ => Clean m → Clean m')
    ?single ?merged ?done ?cut ?unverified ?next m packet m' depth h
  case single =>
    intro m packet _ hm
    exact hm.processPacketWith (fun _ _ hm => hm) r packet
  case merged =>
    intro m packet m' depth _ _ ih hm
    exact (ih (hm.setPeer r _)).poolRecycle packet
  case done => exact fun _ hm => hm
  case cut => exact fun _ _ hm => hm
  case unverified => exact fun _ _ _ hm => hm.poolGetPacket _
  case next =>
    intro packet pos m m' m'' depth depth' _ _ _ _ _ ihCall ihRest hm
    exact ihRest (ihCall (hm.poolGetPacket _))

/-- Where two memories differ only at places from which every run in the second is deep, a run in
the second is that in the first or is deep. -/
theorem Unpacks.agree (bound : ℕ)
    (hdiffer : ∀ {m packet pos m' depth}, Clean m → pos < packet.size →
      memory m packet pos ≠ other m packet pos → UnpacksFrom other r packet pos m m' depth →
        bound ≤ depth)
    (h : Unpacks memory r m packet m' depth) : Clean m → ∀ {m'' depth'},
      Unpacks other r m packet m'' depth' → m'' = m' ∧ depth' = depth ∨ bound ≤ depth' := by
  have hsame : ∀ {m : NetManager} {packet : NetPacket} {pos : ℕ},
      memory m packet pos = other m packet pos →
        fieldAt other m packet pos = fieldAt memory m packet pos ∧
          takenOut other m packet pos = takenOut memory m packet pos := by
    intro m packet pos heq
    simp only [takenOut, fieldAt, heq, and_self]
  refine @Unpacks.rec memory r
    (fun m packet m' depth _ => Clean m → ∀ {m'' depth'},
      Unpacks other r m packet m'' depth' → m'' = m' ∧ depth' = depth ∨ bound ≤ depth')
    (fun packet pos m m' depth _ => Clean m → ∀ {m'' depth'},
      UnpacksFrom other r packet pos m m'' depth' → m'' = m' ∧ depth' = depth ∨ bound ≤ depth')
    ?single ?merged ?done ?cut ?unverified ?next m packet m' depth h
  case single =>
    intro m packet hother _ m'' depth' h'
    cases h' with
    | single => exact .inl ⟨rfl, rfl⟩
    | merged merged => exact absurd merged hother
  case merged =>
    intro m packet m' depth hmerged _ ih hm m'' depth' h'
    cases h' with
    | single other => exact absurd hmerged other
    | merged _ loop =>
      rcases ih (hm.setPeer r _) loop with ⟨rfl, rfl⟩ | hdeep
      · exact .inl ⟨rfl, rfl⟩
      · exact .inr (by omega)
  case done =>
    intro packet pos m finished _ m'' depth' h'
    cases h' with
    | done => exact .inl ⟨rfl, rfl⟩
    | cut more => omega
    | unverified more => omega
    | next more => omega
  all_goals
    intro packet pos m
  case cut =>
    intro more beyond hm m'' depth' h'
    by_cases heq : memory m packet pos = other m packet pos
    · obtain ⟨hfield, htaken⟩ := hsame heq
      rw [← hfield] at beyond
      cases h' with
      | done finished => omega
      | cut => exact .inl ⟨rfl, rfl⟩
      | unverified _ inside => exact absurd beyond inside
      | next _ inside => exact absurd beyond inside
    · exact .inr (hdiffer hm more heq h')
  case unverified =>
    intro more inside unverified hm m'' depth' h'
    by_cases heq : memory m packet pos = other m packet pos
    · obtain ⟨hfield, htaken⟩ := hsame heq
      rw [← hfield] at inside ⊢
      rw [← htaken] at unverified
      cases h' with
      | done finished => omega
      | cut _ beyond => exact absurd beyond inside
      | unverified => exact .inl ⟨rfl, rfl⟩
      | next _ _ verified => simp [unverified] at verified
    · exact .inr (hdiffer hm more heq h')
  case next =>
    intro m₁ m₂ d₁ d₂ more inside verified hcall _ ihCall ihRest hm m'' depth' h'
    by_cases heq : memory m packet pos = other m packet pos
    · obtain ⟨hfield, htaken⟩ := hsame heq
      rw [← hfield] at inside
      rw [← htaken] at verified
      cases h' with
      | done finished => omega
      | cut _ beyond => exact absurd beyond inside
      | unverified _ _ unverified => simp [unverified] at verified
      | next _ _ _ call rest =>
        rw [hfield, htaken] at call
        rw [hfield] at rest
        rcases ihCall (hm.poolGetPacket _) call with ⟨rfl, rfl⟩ | hdeep
        · rcases ihRest (Unpacks.clean hcall (hm.poolGetPacket _)) rest with ⟨rfl, rfl⟩ | hdeep
          · exact .inl ⟨rfl, rfl⟩
          · exact .inr (hdeep.trans (le_max_right _ _))
        · exact .inr (hdeep.trans (le_max_left _ _))
    · exact .inr (hdiffer hm more heq h')

/-- What is behind the buffers decides how a call ends, and nothing else. -/
theorem Unpacks.unique (h : Unpacks memory r m packet m' depth) (hm : Clean m)
    (h' : Unpacks memory r m packet m'' depth') : m'' = m' ∧ depth' = depth := by
  rcases h.agree (depth' + 1) (fun _ _ hne => absurd rfl hne) hm h' with heq | hdeep
  · exact heq
  · omega

section Nested

variable {number : UInt8}

theorem mergedHeader_bits (h : number.toNat < maxConnectionNumber) :
    mergedHeader number &&& 0x1F = UInt8.ofNat PacketProperty.merged.code ∧
      (mergedHeader number &&& 0x60) >>> 5 = number ∧ mergedHeader number &&& 0x80 = 0 := by
  revert h
  refine forall_uint8 (P := fun n => n.toNat < maxConnectionNumber →
    mergedHeader n &&& 0x1F = UInt8.ofNat PacketProperty.merged.code ∧
      (mergedHeader n &&& 0x60) >>> 5 = n ∧ mergedHeader n &&& 0x80 = 0) ?_ number
  decide +kernel

/-- A packet that begins so is merged, of that number and not fragmented. -/
theorem merged_of_byte (h : number.toNat < maxConnectionNumber)
    (hbyte : packet.byte 0 = mergedHeader number) (hsize : 0 < packet.size) :
    packet.property = .merged ∧ packet.connectionNumber = number ∧ packet.verify = true := by
  obtain ⟨hcode, hnumber, hfragmented⟩ := mergedHeader_bits h
  have hpropertyCode : packet.propertyCode = PacketProperty.merged.code := by
    rw [NetPacket.propertyCode, hbyte, hcode]
    rfl
  have hheader : packet.getHeaderSize = 1 := by
    rw [NetPacket.getHeaderSize, hpropertyCode]
    rfl
  refine ⟨?_, ?_, ?_⟩
  · rw [NetPacket.property, hpropertyCode]
    rfl
  · rw [NetPacket.connectionNumber, hbyte, hnumber]
  · rw [NetPacket.verify, hpropertyCode, if_neg (by decide), hheader, NetPacket.isFragmented, hbyte,
      hfragmented]
    simp only [bne_self_eq_false, Bool.not_false, Bool.true_or, Bool.and_true, decide_eq_true_eq]
    omega

theorem Receptive.poolGetPacket (h : m.Receptive r) (size : ℕ) :
    (m.poolGetPacket size).2.Receptive r := by
  rw [Receptive, (m.poolGetPacket_aside size).peerAt]
  exact h

theorem byte_of_isPrefix {b : UInt8} {bs : Bytes} (h : b :: bs <+: packet.data) :
    packet.byte 0 = b := by
  obtain ⟨rest, hrest⟩ := h
  rw [NetPacket.byte, ← hrest, List.cons_append, List.getD_cons_zero]

theorem isPrefix_write {bytes : Bytes} (h : bytes.length ≤ packet.size) :
    bytes <+: (packet.write 0 bytes).data := by
  have hle := packet.size_le
  have hwritten := readBytes_writeBytes_self packet.data 0 bytes (by omega)
  rw [readBytes, List.drop_zero] at hwritten
  exact List.prefix_iff_eq_take.mpr hwritten.symm

theorem fieldAt_nested (memory : Memory) (m : NetManager) {header : UInt8}
    (hdata : nested header (n + 1) <+: packet.data)
    (hn : 3 * n < 65536) : fieldAt memory m packet headerSize = 3 * n := by
  obtain ⟨rest, hrest⟩ := hdata
  have hsplit : packet.data ++ memory m packet headerSize = [header] ++
      (leBytes 2 (3 * n) ++ (nested header n ++ (rest ++ memory m packet headerSize))) := by
    rw [← hrest, nested]
    simp only [List.append_assoc, List.cons_append, List.nil_append]
  rw [fieldAt, hsplit]
  refine (readLE_append_right [header] _ 0 2).trans ?_
  rw [readLE_leBytes_append, Nat.mod_eq_of_lt (by omega)]

theorem takenOut_nested (memory : Memory) (m : NetManager) {header : UInt8}
    (hdata : nested header (n + 1) <+: packet.data)
    (hn : 3 * n < 65536) :
    nested header n <+: (takenOut memory m packet headerSize).data ∧
      (takenOut memory m packet headerSize).size = 3 * n := by
  have hfield := fieldAt_nested memory m hdata hn
  have hsize := m.poolGetPacket_size (3 * n)
  obtain ⟨rest, hrest⟩ := hdata
  have hread : readBytes (packet.data ++ memory m packet headerSize) (headerSize + 2) (3 * n) =
      nested header n := by
    have hsplit : packet.data ++ memory m packet headerSize =
        (header :: leBytes 2 (3 * n)) ++
          (nested header n ++ (rest ++ memory m packet headerSize)) := by
      rw [← hrest, nested]
      simp only [List.append_assoc, List.cons_append]
    have hlength : (header :: leBytes 2 (3 * n)).length = headerSize + 2 := by
      rw [List.length_cons, length_leBytes]
      rfl
    rw [readBytes, hsplit, ← hlength, List.drop_left, ← length_nested header n, List.take_left]
  rw [takenOut, hfield, hread]
  refine ⟨isPrefix_write ?_, hsize⟩
  rw [length_nested, hsize]

theorem UnpacksFrom.le_depth (more : pos < packet.size)
    (inside : ¬ sizeSub packet.bufferSize (pos + 2) < fieldAt memory m packet pos)
    (verified : (takenOut memory m packet pos).verify = true)
    (hcall : ∀ {m'' depth'}, Unpacks memory r (m.poolGetPacket (fieldAt memory m packet pos)).2
      (takenOut memory m packet pos) m'' depth' → n ≤ depth')
    (h : UnpacksFrom memory r packet pos m m' depth) : n ≤ depth := by
  cases h with
  | done finished => omega
  | cut _ beyond => exact absurd beyond inside
  | unverified _ _ unverified => simp [unverified] at verified
  | next _ _ _ call => exact (hcall call).trans (le_max_left _ _)

/-- Where bytes of the buffer are a nested packet, the call for it is as deep. -/
theorem depth_of_nested (hm : Clean m) (hr : m.Receptive r)
    (hdata : nested (mergedHeader (m.peerAt r).connectNumber) n <+: packet.data)
    (hsize : 3 * n ≤ packet.size) (hbuffer : packet.bufferSize < 2 ^ 64) (hn : 3 * n < 65536)
    (h : Unpacks memory r m packet m' depth) : n ≤ depth := by
  induction n generalizing m packet m' depth with
  | zero => exact Nat.zero_le _
  | succ n ih =>
    have hdata' := hdata
    rw [nested] at hdata'
    obtain ⟨hproperty, hnumber, -⟩ := merged_of_byte hr.2 (byte_of_isPrefix hdata') (by omega)
    cases h with
    | single other => exact absurd ⟨hr.1, hproperty, hnumber⟩ other
    | merged _ loop =>
      refine Nat.succ_le_succ ?_
      cases n with
      | zero => exact Nat.zero_le _
      | succ n =>
        generalize hheard : m.heard r = heard at loop
        have hpeer : heard.peerAt r = { m.peerAt r with timeSinceLastPacket := 0 } := by
          rw [← hheard, NetManager.heard, setPeer_self]
        have hclean : Clean heard := hheard ▸ hm.setPeer r _
        have hreceptive : heard.Receptive r := by
          rw [Receptive, hpeer]
          exact hr
        have hfield := fieldAt_nested memory heard hdata (by omega)
        obtain ⟨hinner, hinnerSize⟩ := takenOut_nested memory heard hdata (by omega)
        have hinside : ¬ sizeSub packet.bufferSize (headerSize + 2) <
            fieldAt memory heard packet headerSize := by
          have hle : packet.size ≤ packet.bufferSize := packet.size_le
          have hroom : headerSize + 2 = 3 := rfl
          rw [sizeSub_of_le hbuffer (by omega), hfield]
          omega
        have hverify : (takenOut memory heard packet headerSize).verify = true := by
          rw [nested] at hinner
          exact (merged_of_byte hr.2 (byte_of_isPrefix hinner) (by omega)).2.2
        have hone : headerSize = 1 := rfl
        refine loop.le_depth (by omega) hinside hverify (fun call => ?_)
        rw [hfield] at call
        refine ih (hclean.poolGetPacket _) (hreceptive.poolGetPacket _) ?_ hinnerSize.ge ?_
          (by omega) call
        · rw [(heard.poolGetPacket_aside _).peerAt, hpeer]
          exact hinner
        · rw [takenOut, hfield, NetPacket.write_bufferSize]
          exact poolGetPacket_bufferSize hclean (by omega)

end Nested

/-- A memory with packets merged 600 deep behind the buffers of which the loop leaves one byte. -/
def deepMemory (memory : Memory) (r : PeerRef) : Memory := fun m packet pos =>
  if packet.bufferSize < pos + 2 ∧ m.Receptive r then
    8 :: nested (mergedHeader (m.peerAt r).connectNumber) 600
  else memory m packet pos

/-- The field at the last byte of a buffer has its other byte from behind it. -/
theorem readLE_last {data : Bytes} (h : pos + 1 = data.length) (b : UInt8) (rest : Bytes) :
    ∃ a : UInt8, readLE (data ++ b :: rest) pos 2 = a.toNat + 256 * b.toNat := by
  obtain rfl | ⟨init, a, rfl⟩ := data.eq_nil_or_concat
  · simp at h
  refine ⟨a, ?_⟩
  have hpos : pos = init.length + 0 := by simpa using h
  rw [List.concat_eq_append, List.append_assoc, hpos, readLE_append_right]
  simp [readLE, readBytes, ofLEBytes]

/-- Where the loop takes out what is behind the buffer, it may be deep. -/
theorem UnpacksFrom.overrun (hm : Clean m) (more : pos < packet.size)
    (beyond : packet.bufferSize < pos + 2) (hr : m.Receptive r)
    (h : UnpacksFrom (deepMemory memory r) r packet pos m m' depth) : 600 ≤ depth := by
  have hle : packet.size ≤ packet.bufferSize := packet.size_le
  have hmemory : deepMemory memory r m packet pos =
      8 :: nested (mergedHeader (m.peerAt r).connectNumber) 600 := if_pos ⟨beyond, hr⟩
  have hlength : pos + 1 = packet.data.length := by
    rw [NetPacket.bufferSize] at hle beyond
    omega
  obtain ⟨a, hread⟩ :=
    readLE_last hlength 8 (nested (mergedHeader (m.peerAt r).connectNumber) 600)
  have hfield : fieldAt (deepMemory memory r) m packet pos = a.toNat + 2048 := by
    rw [fieldAt, hmemory, hread]
    rfl
  have ha := a.toNat_lt
  have hinside : ¬ sizeSub packet.bufferSize (pos + 2) <
      fieldAt (deepMemory memory r) m packet pos := by
    have hroom : packet.bufferSize + 2 ^ 64 - (pos + 2) = 2 ^ 64 - 1 := by omega
    rw [hfield, sizeSub, hroom, Nat.mod_eq_of_lt (by omega)]
    omega
  have hcopied : readBytes (packet.data ++ deepMemory memory r m packet pos) (pos + 2)
      (a.toNat + 2048) = nested (mergedHeader (m.peerAt r).connectNumber) 600 := by
    have hdrop : pos + 2 = packet.data.length + 1 := by omega
    rw [readBytes, hmemory, hdrop, List.drop_length_add_append, List.drop_one, List.tail_cons,
      List.take_of_length_le]
    rw [length_nested]
    omega
  have hsize := m.poolGetPacket_size (a.toNat + 2048)
  have hinner : nested (mergedHeader (m.peerAt r).connectNumber) 600 <+:
      (takenOut (deepMemory memory r) m packet pos).data := by
    rw [takenOut, hfield, hcopied]
    refine isPrefix_write ?_
    rw [length_nested, hsize]
    omega
  have hinnerSize : (takenOut (deepMemory memory r) m packet pos).size = a.toNat + 2048 := by
    rw [takenOut, hfield, NetPacket.write_size, hsize]
  have hverify : (takenOut (deepMemory memory r) m packet pos).verify = true := by
    rw [nested] at hinner
    exact (merged_of_byte hr.2 (byte_of_isPrefix hinner) (by omega)).2.2
  refine h.le_depth more hinside hverify (fun call => ?_)
  rw [hfield] at call
  refine depth_of_nested (hm.poolGetPacket _) (hr.poolGetPacket _) ?_ (by omega) ?_ (by decide) call
  · rw [(m.poolGetPacket_aside _).peerAt]
    exact hinner
  · rw [takenOut, hfield, NetPacket.write_bufferSize]
    exact poolGetPacket_bufferSize hm (by omega)

theorem deepMemory_of_not (memory : Memory) (h : ¬ (packet.bufferSize < pos + 2 ∧ m.Receptive r)) :
    fieldAt (deepMemory memory r) m packet pos = fieldAt memory m packet pos ∧
      takenOut (deepMemory memory r) m packet pos = takenOut memory m packet pos := by
  simp only [takenOut, fieldAt, deepMemory, if_neg h, and_self]

theorem Overruns.deep (h : Overruns memory r m packet) : Clean m → ∀ {m' depth},
    Unpacks (deepMemory memory r) r m packet m' depth → 600 ≤ depth := by
  refine @Overruns.rec memory r
    (fun m packet _ => Clean m → ∀ {m' depth},
      Unpacks (deepMemory memory r) r m packet m' depth → 600 ≤ depth)
    (fun packet pos m _ => Clean m → ∀ {m' depth},
      UnpacksFrom (deepMemory memory r) r packet pos m m' depth → 600 ≤ depth)
    ?merged ?here ?inside ?later m packet h
  case merged =>
    intro m packet hmerged _ ih hm m' depth h
    cases h with
    | single other => exact absurd hmerged other
    | merged _ loop => exact (ih (hm.setPeer r _) loop).trans (Nat.le_succ _)
  case here =>
    intro packet pos m more beyond hr hm m' depth h
    exact h.overrun hm more beyond hr
  all_goals
    intro packet pos m
  case inside =>
    intro more inside verified _ ih hm m' depth h
    by_cases hhere : packet.bufferSize < pos + 2 ∧ m.Receptive r
    · exact h.overrun hm more hhere.1 hhere.2
    · obtain ⟨hfield, htaken⟩ := deepMemory_of_not memory hhere
      rw [← hfield] at inside
      rw [← htaken] at verified
      refine h.le_depth more inside verified (fun call => ?_)
      rw [hfield, htaken] at call
      exact ih (hm.poolGetPacket _) call
  case later =>
    intro m₁ d more inside verified hcall _ ih hm m' depth h
    by_cases hhere : packet.bufferSize < pos + 2 ∧ m.Receptive r
    · exact h.overrun hm more hhere.1 hhere.2
    · obtain ⟨hfield, htaken⟩ := deepMemory_of_not memory hhere
      rw [← hfield] at inside
      rw [← htaken] at verified
      cases h with
      | done finished => omega
      | cut _ beyond => exact absurd beyond inside
      | unverified _ _ unverified => simp [unverified] at verified
      | next _ _ _ call rest =>
        rw [hfield, htaken] at call
        rw [hfield] at rest
        have hdiffer : ∀ {m packet pos m' depth}, Clean m → pos < packet.size →
            memory m packet pos ≠ deepMemory memory r m packet pos →
              UnpacksFrom (deepMemory memory r) r packet pos m m' depth → 600 ≤ depth := by
          intro m packet pos m' depth hm more hne hloop
          by_cases h : packet.bufferSize < pos + 2 ∧ m.Receptive r
          · exact hloop.overrun hm more h.1 h.2
          · exact absurd (if_neg h).symm hne
        rcases hcall.agree 600 hdiffer (hm.poolGetPacket _) call with ⟨rfl, rfl⟩ | hdeep
        · exact (ih (hcall.clean (hm.poolGetPacket _)) rest).trans (le_max_right _ _)
        · exact hdeep.trans (le_max_left _ _)

/-- For a packet that is zero behind its end, taking it apart ends whatever is in the memory behind
the buffers, with merged packets at most a third of its size deep in each other, exactly if it does
not overrun. -/
theorem unpacks_iff (hm : Clean m) (hsize : packet.size ≤ maxPacketSize)
    (hzero : ∀ i, packet.size ≤ i → packet.byte i = 0) :
    (∀ memory, ∃ m' depth, Unpacks memory r m packet m' depth ∧ depth ≤ packet.size / 3 + 1) ↔
      ∀ memory, ¬ Overruns memory r m packet := by
  constructor
  · intro h memory hover
    obtain ⟨m', depth, hunpacks, hdepth⟩ := h (deepMemory memory r)
    have hdeep := hover.deep hm hunpacks
    have hmax : maxPacketSize = 1432 := rfl
    omega
  · exact fun h memory => unpacks_of_not_overruns hm hzero (h memory)

/-- The packet behind a length field, where both are in the buffer. -/
def unpackedAt (m : NetManager) (packet : NetPacket) (pos : ℕ) : NetPacket :=
  (m.poolGetPacket (packet.getValueAt pos 2)).1.write 0
    (readBytes packet.data (pos + 2) (packet.getValueAt pos 2))

/-- What is read in the buffer does not depend on the memory behind it. -/
theorem takenOut_inside (hpos : pos + 2 + packet.getValueAt pos 2 ≤ packet.bufferSize)
    (memory : Memory) (m : NetManager) :
    fieldAt memory m packet pos = packet.getValueAt pos 2 ∧
      takenOut memory m packet pos = m.unpackedAt packet pos := by
  rw [NetPacket.bufferSize] at hpos
  have hread : fieldAt memory m packet pos = packet.getValueAt pos 2 := by
    rw [fieldAt, readLE, readBytes_append_of_le _ _ (by omega), ← readLE, NetPacket.getValueAt]
  rw [takenOut, unpackedAt, hread, readBytes_append_of_le _ _ hpos]
  exact ⟨rfl, rfl⟩

theorem OverrunsFrom.into (hpos : pos + 2 + packet.getValueAt pos 2 ≤ packet.bufferSize)
    (more : pos < packet.size)
    (inside : ¬ sizeSub packet.bufferSize (pos + 2) < packet.getValueAt pos 2)
    (verified : (m.unpackedAt packet pos).verify = true)
    (call : Overruns memory r (m.poolGetPacket (packet.getValueAt pos 2)).2
      (m.unpackedAt packet pos)) : OverrunsFrom memory r packet pos m := by
  obtain ⟨hread, htaken⟩ := takenOut_inside hpos memory m
  rw [← htaken] at verified call
  rw [← hread] at inside call
  exact .inside more inside verified call

theorem OverrunsFrom.past (hpos : pos + 2 + packet.getValueAt pos 2 ≤ packet.bufferSize)
    (more : pos < packet.size)
    (inside : ¬ sizeSub packet.bufferSize (pos + 2) < packet.getValueAt pos 2)
    (verified : (m.unpackedAt packet pos).verify = true)
    (call : Unpacks memory r (m.poolGetPacket (packet.getValueAt pos 2)).2
      (m.unpackedAt packet pos) m' depth)
    (rest : OverrunsFrom memory r packet (pos + 2 + packet.getValueAt pos 2) m') :
    OverrunsFrom memory r packet pos m := by
  obtain ⟨hread, htaken⟩ := takenOut_inside hpos memory m
  rw [← htaken] at verified call
  rw [← hread] at inside call rest
  exact .later more inside verified call rest

/-- A loop that overruns does so in the next call or after it. -/
theorem OverrunsFrom.cases_inside
    (hpos : pos + 2 + packet.getValueAt pos 2 ≤ packet.bufferSize)
    (h : OverrunsFrom memory r packet pos m) :
    Overruns memory r (m.poolGetPacket (packet.getValueAt pos 2)).2 (m.unpackedAt packet pos) ∨
      ∃ m', OverrunsFrom memory r packet (pos + 2 + packet.getValueAt pos 2) m' := by
  obtain ⟨hread, htaken⟩ := takenOut_inside hpos memory m
  cases h with
  | here _ beyond => omega
  | inside _ _ _ call =>
    rw [htaken, hread] at call
    exact .inl call
  | later _ _ _ _ rest =>
    rw [hread] at rest
    exact .inr ⟨_, rest⟩

theorem OverrunsFrom.more (h : OverrunsFrom memory r packet pos m) : pos < packet.size := by
  cases h <;> assumption

theorem Overruns.cases (h : Overruns memory r m packet) :
    m.Unmerging r packet ∧ OverrunsFrom memory r packet headerSize (m.heard r) := by
  cases h with
  | merged merged loop => exact ⟨merged, loop⟩

/-- A merged packet with a merged packet of four bytes in it. -/
theorem unpacks_iff_connectedClient :
    (connectedClient.poolGetPacket maxPacketSize).2.Unmerging 0
      (connectedClient.receivePacket [12, 4, 0, 12, 1, 0, 0]) ∧ ∀ memory, ∃ m' depth,
    Unpacks memory 0 (connectedClient.poolGetPacket maxPacketSize).2
      (connectedClient.receivePacket [12, 4, 0, 12, 1, 0, 0]) m' depth ∧ depth ≤ 7 / 3 + 1 := by
  have hm : Clean connectedClient := (consistent_of_reachable connectedClient_reachable).pool
  refine ⟨by decide +kernel,
    (unpacks_iff (hm.poolGetPacket _) (by decide) (receivePacket_zero hm _)).mpr ?_⟩
  intro memory h
  rcases h.cases.2.cases_inside (by decide +kernel) with hcall | ⟨m', hrest⟩
  · rcases hcall.cases.2.cases_inside (by decide +kernel) with hcall | ⟨m', hrest⟩
    · exact absurd hcall.cases.1 (by decide +kernel)
    · exact absurd hrest.more (by decide +kernel)
  · exact absurd hrest.more (by decide +kernel)

/-- A client whose pool holds two packets of 16 bytes, as it answered two replies that it is
unknown. -/
def pooledClient : NetManager :=
  (((connectedClient.act (.receive [14] ⟨2, 1, 2, 0⟩)).act (.send 0 [7] 0 1 0 .unreliable 0)).act
    (.receive [14] ⟨2, 1, 2, 0⟩)).act (.updateLogic 1)

theorem pooledClient_reachable : Reachable Initial Step pooledClient := by
  refine (((connectedClient_reachable.tail ⟨.receive _ _, ?_, rfl⟩).tail
    ⟨.send _ _ _ _ _ _ _, ?_, rfl⟩).tail ⟨.receive _ _, ?_, rfl⟩).tail ⟨.updateLogic _, ?_, rfl⟩
  · exact show 1 ≤ maxPacketSize by decide
  · exact show 0 < _ by decide +kernel
  · exact show 1 ≤ maxPacketSize by decide
  · exact show (1 : ℤ) ≤ 1 by decide

/-- The inner packet is as large as the buffer it is copied to, and the packet in it leaves one
byte. -/
theorem pooledClient_overruns (memory : Memory) :
    Overruns memory 0 (pooledClient.poolGetPacket maxPacketSize).2
      (pooledClient.receivePacket
        [12, 16, 0, 12, 12, 0, 0, 0, 0, 0, 0, 0, 0, 0, 0, 0, 0, 0, 0]) := by
  refine .merged (by decide +kernel) (.into (by decide +kernel) (by decide +kernel)
    (by decide +kernel) (by decide +kernel) (.merged (by decide +kernel) ?_))
  refine .past (by decide +kernel) (by decide +kernel) (by decide +kernel) (by decide +kernel)
    (.single (by decide +kernel)) ?_
  exact .here (by decide +kernel) (by decide +kernel) (by decide +kernel)

theorem not_always_unpacks : ¬ ∀ m, Reachable Initial Step m → ∀ addr r,
    m.tryGetPeer addr = some r → ∀ bytes : Bytes, bytes.length ≤ maxPacketSize →
    ∀ memory, ∃ m' depth,
      Unpacks memory r (m.poolGetPacket maxPacketSize).2 (m.receivePacket bytes) m' depth ∧
        depth ≤ bytes.length / 3 + 1 := by
  intro h
  obtain ⟨m', depth, hunpacks, hdepth⟩ := h pooledClient pooledClient_reachable ⟨2, 1, 2, 0⟩ 0
    (by decide +kernel) [12, 16, 0, 12, 12, 0, 0, 0, 0, 0, 0, 0, 0, 0, 0, 0, 0, 0, 0] (by decide)
    (deepMemory (fun _ _ _ => []) 0)
  have hm : Clean pooledClient := (consistent_of_reachable pooledClient_reachable).pool
  have hdeep := (pooledClient_overruns _).deep (hm.poolGetPacket _) hunpacks
  have hbound : depth ≤ 7 := hdepth
  omega

end NetManager

end LiteNet.Manager
