import LiteNet.Channels.ReliableReceiver

/-! # The sending half of the reliable channel

The send window represents the sender of selective repeat. Queued packets enter
the window in order, and a pending slot is cleared only for a number that the
acknowledgement being processed reports.
-/

namespace LiteNet.Channels
open Library Wire Relation

private theorem shift_and_content {n : UInt8} (h : n.toNat < maxConnectionNumber) :
    n <<< (5 : UInt8) &&& (0x9F : UInt8) = 0 := by
  revert h
  refine forall_uint8
    (P := fun n => n.toNat < maxConnectionNumber → n <<< (5 : UInt8) &&& (0x9F : UInt8) = 0) ?_ n
  decide +kernel

/-- What a channel leaves of a packet as the user gave it: the header byte less the connection
number, and all that follows the channeled header. -/
def packetContent (p : NetPacket) : UInt8 × Bytes :=
  (p.byte 0 &&& (0x9F : UInt8), p.wire.drop channeledHeaderSize)

section Content

variable (p : NetPacket)

private theorem drop_wire_write {position : ℕ} {bytes : Bytes}
    (h : position + bytes.length ≤ channeledHeaderSize) :
    (p.write position bytes).wire.drop channeledHeaderSize = p.wire.drop channeledHeaderSize := by
  apply List.ext_getElem?
  intro i
  rw [List.getElem?_drop, List.getElem?_drop]
  by_cases hi : channeledHeaderSize + i < p.size
  · rw [NetPacket.getElem?_wire _ (by simpa using hi), NetPacket.getElem?_wire _ hi,
      NetPacket.write, getElem?_writeBytes, if_neg (by omega)]
  · rw [List.getElem?_eq_none (by rw [NetPacket.length_wire]; simpa using hi),
      List.getElem?_eq_none (by rw [NetPacket.length_wire]; simpa using hi)]

private theorem packetContent_write {position : ℕ} {bytes : Bytes} (h0 : 0 < position)
    (h : position + bytes.length ≤ channeledHeaderSize) :
    packetContent (p.write position bytes) = packetContent p := by
  rw [packetContent, drop_wire_write p h, p.byte_write_of_disjoint _ _ _ (.inl h0), packetContent]

@[simp] theorem packetContent_setSequence (v : ℕ) :
    packetContent (p.setSequence v) = packetContent p :=
  packetContent_write p one_pos (by simp [channeledHeaderSize])

@[simp] theorem packetContent_setChannelId (id : UInt8) :
    packetContent (p.setChannelId id) = packetContent p :=
  packetContent_write p three_pos (by simp [channeledHeaderSize])

theorem packetContent_setConnectionNumber {n : UInt8} (h : n.toNat < maxConnectionNumber) :
    packetContent (p.setConnectionNumber n) = packetContent p := by
  rw [packetContent, NetPacket.setConnectionNumber, NetPacket.setByte,
    drop_wire_write p (by simp [channeledHeaderSize]), ← NetPacket.setByte,
    p.byte_setByte _ _ p.bufferSize_pos, or_and_distrib, UInt8.and_assoc,
    show (0x9F : UInt8) &&& 0x9F = 0x9F from rfl, packetContent, shift_and_content h, UInt8.or_zero]

theorem packetContent_received (h : 1 ≤ p.size) :
    packetContent (NetPacket.received p.wire) = packetContent p := by
  rw [packetContent, NetPacket.byte_received p h, NetPacket.wire_received, packetContent]

end Content

/-- The packet carries what was submitted as number `i`, under that number. -/
structure Carries (given : List NetPacket) (i : ℕ) (p : NetPacket) : Prop where
  content : ∃ q, given[i]? = some q ∧ packetContent p = packetContent q
  property : p.property = .channeled
  header_le : channeledHeaderSize ≤ p.size
  sequence : p.sequence = i % maxSequence

namespace Carries

variable {given : List NetPacket} {i : ℕ} {p : NetPacket}

theorem append (h : Carries given i p) (q : NetPacket) : Carries (given ++ [q]) i p :=
  { h with
    content := by
      obtain ⟨r, hr, hc⟩ := h.content
      exact ⟨r, List.getElem?_append_left (List.getElem?_eq_some_iff.mp hr).1 ▸ hr, hc⟩ }

theorem setConnectionNumber (h : Carries given i p) {n : UInt8}
    (hn : n.toNat < maxConnectionNumber) : Carries given i (p.setConnectionNumber n) where
  content := by
    rw [packetContent_setConnectionNumber p hn]
    exact h.content
  property := by rw [NetPacket.property_setConnectionNumber, h.property]
  header_le := h.header_le
  sequence := by rw [NetPacket.sequence_setConnectionNumber, h.sequence]

theorem received (h : Carries given i p) : Carries given i (.received p.wire) where
  content := by
    rw [packetContent_received p (le_trans (by decide) h.header_le)]
    exact h.content
  property := by rw [NetPacket.property_received p (le_trans (by decide) h.header_le), h.property]
  header_le := by
    rw [NetPacket.size_received, NetPacket.length_wire]
    exact h.header_le
  sequence := by
    rw [NetPacket.sequence_received p (le_trans (by decide) h.header_le), h.sequence]

/-- A submitted packet carries itself once it is numbered. -/
theorem stamp {q : NetPacket} (hq : given[i]? = some q) (hp : q.property = .channeled)
    (hs : channeledHeaderSize ≤ q.size) (id : UInt8) :
    Carries given i ((q.setSequence (i % maxSequence)).setChannelId id) where
  content := ⟨q, hq, by simp⟩
  property := by simpa using hp
  header_le := hs
  sequence := by
    rw [NetPacket.sequence_setChannelId, NetPacket.sequence_setSequence]
    exact Nat.mod_eq_of_lt ((Nat.mod_lt _ (by decide)).trans (by decide))

end Carries

/-- A slot of the send window keeps the packet of its number until that is acknowledged. -/
def Pends (s : SelectiveRepeat.State NetPacket) (i : ℕ) (pending : PendingPacket) : Prop :=
  i < s.next → match pending.packet with
    | none => i ∈ s.acked
    | some p => i ∉ s.acked ∧ Carries s.given i p

/-- An acknowledgement as the network keeps it, with the true start of its window. -/
structure Acknowledges (s : SelectiveRepeat.State NetPacket) (start : ℕ) (p : NetPacket) :
    Prop where
  sequence : p.sequence = start % maxSequence
  snapshot : ∃ r ∈ s.snapshots, r.start = start ∧ Reports p start r.bits

namespace NetReliableChannel

/-- The sending half of a channel represents the sender of selective repeat, with the packets
of `queue` not yet numbered. -/
structure Sends (queue : List NetPacket) (ch : NetReliableChannel)
    (s : SelectiveRepeat.State NetPacket) : Prop where
  localSequence : ch.localSequence = s.next % maxSequence
  localWindowStart : ch.localWindowStart = s.base % maxSequence
  queue_eq : queue = s.given.drop s.next
  pending : Holds ch.pendingPackets s.base (Pends s)
  given_channeled : ∀ p ∈ s.given, p.property = .channeled ∧ channeledHeaderSize ≤ p.size

section Send

variable {queue : List NetPacket} {ch : NetReliableChannel} {s : SelectiveRepeat.State NetPacket}
  {packet : NetPacket}

theorem windowSize_lt_halfMaxSequence : 2 * windowSize < halfMaxSequence := by decide

/-- Numbering the packet at the head of the queue. -/
private theorem Sends.number (h : Sends (packet :: queue) ch s)
    (hinv : SelectiveRepeat.Inv windowSize s) (hroom : s.next < s.base + windowSize) :
    s.next < s.given.length ∧
      Sends queue (ch.admitPacket packet) s.numbered := by
  have hhead : s.given[s.next]? = some packet := by
    have := congrArg List.head? h.queue_eq
    simpa using this.symm
  have hlt : s.next < s.given.length := (List.getElem?_eq_some_iff.mp hhead).1
  have hmem : packet ∈ s.given := List.mem_of_getElem? hhead
  have hslot : ringSlot ch.localSequence = ringSlot s.next := by
    rw [h.localSequence]
    exact slot_mod (by decide) _
  refine ⟨hlt, ?_, h.localWindowStart, ?_, ?_, h.given_channeled⟩
  · rw [admitPacket, h.localSequence, wrapped_succ]
    rfl
  · have htail := congrArg List.tail h.queue_eq
    simpa [List.tail_drop, SelectiveRepeat.State.numbered] using htail
  · rw [admitPacket, hslot, h.localSequence]
    refine h.pending.update hinv.base_le hroom (fun _ => ?_) (fun j v hj hv hlt' => ?_)
    · refine ⟨fun ha => (hinv.got_lt _ (hinv.acked_got _ ha)).false, ?_⟩
      exact Carries.stamp hhead (h.given_channeled packet hmem).1 (h.given_channeled packet hmem).2
        ch.id
    · exact hv (by simp only [SelectiveRepeat.State.numbered] at hlt'; omega)

theorem admit_sameReceiver (queue : List NetPacket) (ch : NetReliableChannel) :
    SameReceiver ch (fillWindow queue ch) := by
  induction queue generalizing ch with
  | nil => constructor <;> rfl
  | cons packet queue ih =>
    rw [fillWindow]
    split
    · constructor <;> rfl
    · refine SameReceiver.trans ?_ (ih _)
      constructor <;> rfl

/-- Admission numbers queued packets while the window has room. -/
theorem admit_spec (h : Sends queue ch s) (hinv : SelectiveRepeat.Inv windowSize s) :
    ∃ next', s.next ≤ next' ∧
      ReflTransGen (SelectiveRepeat.Step windowSize) s { s with next := next' } ∧
      Sends (fillWindow queue ch).base.outgoingQueue (fillWindow queue ch) { s with next := next' } := by
  induction queue generalizing ch s with
  | nil =>
    exact ⟨s.next, le_rfl, .refl, h.localSequence, h.localWindowStart, h.queue_eq, h.pending,
      h.given_channeled⟩
  | cons packet queue ih =>
    have hnext := hinv.next_lt
    have hbase := hinv.base_le
    have hhalf := windowSize_lt_halfMaxSequence
    have hrelate : relativeSequenceNumber ch.localSequence ch.localWindowStart =
        (s.next : ℤ) - s.base := by
      rw [h.localSequence, h.localWindowStart, relativeSequenceNumber_wrapped (by omega) (by omega)]
    rw [fillWindow, hrelate]
    split
    · exact ⟨s.next, le_rfl, .refl, h.localSequence, h.localWindowStart, h.queue_eq, h.pending,
        h.given_channeled⟩
    · next hroom =>
      have hroom' : s.next < s.base + windowSize := by omega
      obtain ⟨hlt, hsends⟩ := h.number hinv hroom'
      obtain ⟨next', hle, hrun, hs⟩ := ih hsends (hinv.number hlt hroom')
      exact ⟨next', (Nat.le_succ _).trans hle, .head (.number s hlt hroom') hrun, hs⟩

private theorem trySend_calls {ctx : ChannelContext} {pending : PendingPacket} {c : PeerCall}
    (hc : c ∈ (pending.trySend ctx).2.1) : ∃ p, c = .sendUserData p := by
  rw [PendingPacket.trySend] at hc
  cases hp : pending.packet with
  | none => simp [hp] at hc
  | some q =>
    simp only [hp] at hc
    split at hc
    · simp at hc
    · exact ⟨_, by simpa using hc⟩

/-- Sending a slot keeps its packet, and what is sent carries the slot's number. -/
private theorem Pends.trySend {ctx : ChannelContext} {i : ℕ} {pending : PendingPacket}
    (hn : ctx.connectNumber.toNat < maxConnectionNumber) (h : Pends s i pending) :
    Pends s i (pending.trySend ctx).1 ∧ ∀ p, .sendUserData p ∈ (pending.trySend ctx).2.1 →
      i < s.next → Carries s.given i p := by
  rw [PendingPacket.trySend]
  cases hp : pending.packet with
  | none => exact ⟨h, by simp⟩
  | some q =>
    simp only
    split
    · exact ⟨h, by simp⟩
    · have hq : i < s.next → i ∉ s.acked ∧ Carries s.given i q := fun hi => by
        simpa only [hp] using h hi
      refine ⟨fun hi => ⟨(hq hi).1, (hq hi).2.setConnectionNumber hn⟩, fun p hm hi => ?_⟩
      obtain rfl : p = q.setConnectionNumber ctx.connectNumber := by simpa using hm
      exact (hq hi).2.setConnectionNumber hn

/-- The sending loop keeps the window, and each packet it sends carries a number of it. -/
theorem sendPending_spec (ctx : ChannelContext) (fuel : ℕ) {j : ℕ} {ring : Ring PendingPacket}
    (hn : ctx.connectNumber.toNat < maxConnectionNumber)
    (h : Holds ring s.base (Pends s)) (hb : s.base ≤ j) (hj : j ≤ s.next)
    (hw : s.next ≤ s.base + windowSize)
    {r : Ring PendingPacket × List PeerCall × Bool}
    (hr : sendPending ctx (s.next % maxSequence) fuel (j % maxSequence) ring = r) :
    Holds r.1 s.base (Pends s) ∧
      ∀ c ∈ r.2.1, ∃ i p, c = .sendUserData p ∧ j ≤ i ∧ i < s.next ∧ Carries s.given i p := by
  induction fuel generalizing j ring r with
  | zero =>
    subst hr
    exact ⟨h, by simp [sendPending]⟩
  | succ fuel ih =>
    rw [sendPending] at hr
    split at hr
    · subst hr
      exact ⟨h, by simp⟩
    · next hne =>
      have hlt : j < s.next := lt_of_le_of_ne hj fun he => hne (he ▸ rfl)
      have hslot : ringSlot (j % maxSequence) = ringSlot j := slot_mod (by decide) j
      rw [hslot, wrapped_succ] at hr
      have htry := Pends.trySend hn (h j hb (by omega))
      obtain ⟨hring, hcalls⟩ := ih
        (h.update hb (by omega) htry.1 (fun _ _ _ hv => hv)) (by omega) hlt rfl
      subst hr
      refine ⟨hring, fun c hc => ?_⟩
      rcases List.mem_append.mp hc with hc | hc
      · obtain ⟨p, rfl⟩ := trySend_calls hc
        exact ⟨j, p, rfl, le_rfl, hlt, htry.2 p hc hlt⟩
      · obtain ⟨i, p, rfl, hi, hi', hp⟩ := hcalls c hc
        exact ⟨i, p, rfl, by omega, hi', hp⟩

private theorem Sends.release {i : ℕ} (h : Sends queue ch s) (hb : s.base ≤ i) (hi : i < s.next)
    (hw : s.next ≤ s.base + windowSize) :
    Sends queue (ch.releasePending (i % maxSequence)).1 (s.released i) := by
  have hslot : ringSlot (i % maxSequence) = ringSlot i := slot_mod (by decide) i
  have hpos := NeZero.pos windowSize
  have hhalf := windowSize_lt_halfMaxSequence
  have hring : Holds (Function.update ch.pendingPackets (ringSlot i)
      (ch.pendingPackets (ringSlot i)).clear.1) s.base (Pends (s.released i)) := by
    refine h.pending.update hb (by omega) (fun _ => ?_) (fun j v hj hv hlt => ?_)
    · have hclear : (ch.pendingPackets (ringSlot i)).clear.1.packet = none := by
        rw [PendingPacket.clear]
        cases hp : (ch.pendingPackets (ringSlot i)).packet with
        | none => exact hp
        | some q => rfl
      rw [hclear]
      exact Set.mem_insert _ _
    · have hv' := hv hlt
      simp only [SelectiveRepeat.State.released]
      cases hp : v.packet with
      | none =>
        rw [hp] at hv'
        exact Set.mem_insert_of_mem _ hv'
      | some q =>
        rw [hp] at hv'
        exact ⟨fun hm => hm.elim hj hv'.1, hv'.2⟩
  rw [releasePending, hslot]
  by_cases he : i = s.base
  · subst he
    have hbase : (s.released s.base).base = s.base + 1 := if_pos rfl
    refine ⟨h.localSequence, ?_, h.queue_eq, ?_, h.given_channeled⟩
    · rw [hbase, h.localWindowStart, if_pos rfl, wrapped_succ]
    · rw [hbase]
      refine hring.slide fun hlt => ?_
      have : s.base + windowSize < s.next := hlt
      omega
  · have hbase : (s.released i).base = s.base := if_neg he
    have hne : i % maxSequence ≠ ch.localWindowStart := fun hm => by
      rw [h.localWindowStart] at hm
      have := maxSequence_eq
      exact he (wrapped_injOn hb (by omega) hm.symm).symm
    refine ⟨h.localSequence, ?_, h.queue_eq, ?_, h.given_channeled⟩
    · rw [hbase, if_neg hne, h.localWindowStart]
    · rw [hbase]
      exact hring

/-- The acknowledgement loop lets go of numbers that the acknowledgement reports, one by one. -/
private theorem ackPending_spec {start j fuel : ℕ} (h : Sends queue ch s)
    (hinv : SelectiveRepeat.Inv windowSize s) (hack : Acknowledges s start packet)
    (hb : s.base ≤ j) (hj : j ≤ s.next) (hs : start ≤ s.base)
    (hnear : s.next < start + halfMaxSequence)
    {r : NetReliableChannel × List PeerCall}
    (hr : ackPending packet (start % maxSequence) fuel (j % maxSequence) ch = r) :
    ∃ s', ReflTransGen (SelectiveRepeat.Step windowSize) s s' ∧ Sends queue r.1 s' ∧
      ∃ base' acked', s' = { s with base := base', acked := acked' } := by
  induction fuel generalizing j ch s r with
  | zero =>
    subst hr
    exact ⟨s, .refl, h, s.base, s.acked, rfl⟩
  | succ fuel ih =>
    rw [ackPending] at hr
    split at hr
    · subst hr
      exact ⟨s, .refl, h, s.base, s.acked, rfl⟩
    · next hne =>
      have hlt : j < s.next := lt_of_le_of_ne hj fun he => hne (by rw [he, h.localSequence])
      have hrel : relativeSequenceNumber (j % maxSequence : ℕ) (start % maxSequence : ℕ) =
          (j : ℤ) - start := relativeSequenceNumber_wrapped (by omega) (by omega)
      have hslot : j % maxSequence % windowSize = j % windowSize :=
        Nat.mod_mod_of_dvd _ (by decide)
      rw [hrel, hslot, wrapped_succ] at hr
      split_ifs at hr with hfar hbit
      · subst hr
        exact ⟨s, .refl, h, s.base, s.acked, rfl⟩
      · exact ih h hinv hack (by omega) hlt hs hnear hr
      · obtain ⟨snap, hsnap, hstart, hrep⟩ := hack.snapshot
        have hmem : j ∈ snap.bits :=
          (hrep.test (by omega) (by omega)).mp (by simpa using hbit)
        have hstep : SelectiveRepeat.Step windowSize s (s.released j) :=
          .release s snap j hsnap hmem hb
        have hrel := h.release hb hlt hinv.next_lt
        have hbase : s.base ≤ (s.released j).base ∧ (s.released j).base ≤ j + 1 := by
          simp only [SelectiveRepeat.State.released]
          split <;> omega
        obtain ⟨s', hrun, hsends, base', acked', he⟩ := ih hrel (hinv.step hstep)
          ⟨hack.sequence, hack.snapshot⟩ hbase.2 hlt (by omega) hnear rfl
        subst hr
        exact ⟨s', .head hstep hrun, hsends, base', acked', he⟩

/-- Processing an acknowledgement whose window is not too old. -/
theorem processAck_spec {start : ℕ} (h : Sends queue ch s)
    (hinv : SelectiveRepeat.Inv windowSize s) (hack : Acknowledges s start packet)
    (hold : s.base < start + halfMaxSequence)
    {r : NetReliableChannel × List PeerCall} (hr : ch.processAck packet = r) :
    ∃ s', ReflTransGen (SelectiveRepeat.Step windowSize) s s' ∧ Sends queue r.1 s' ∧
      ∃ base' acked', s' = { s with base := base', acked := acked' } := by
  have hsame : ∃ s', ReflTransGen (SelectiveRepeat.Step windowSize) s s' ∧ Sends queue ch s' ∧
      ∃ base' acked', s' = { s with base := base', acked := acked' } :=
    ⟨s, .refl, h, s.base, s.acked, rfl⟩
  obtain ⟨snap, hsnap, hstart, hrep⟩ := hack.snapshot
  have hle : start ≤ s.base := by
    have := hinv.snapshot_start snap hsnap
    have := hinv.windowStart_le_base
    omega
  have hrelate : relativeSequenceNumber ch.localWindowStart packet.sequence =
      (s.base : ℤ) - start := by
    rw [h.localWindowStart, hack.sequence, relativeSequenceNumber_wrapped (by omega) (by omega)]
  rw [processAck] at hr
  simp only [hrelate] at hr
  split_ifs at hr with hsize hrange hfar
  · subst hr
    exact hsame
  · subst hr
    exact hsame
  · subst hr
    exact hsame
  · have hnear : s.next < start + halfMaxSequence := by
      have := hinv.next_lt
      have := windowSize_lt_halfMaxSequence
      omega
    rw [hack.sequence, h.localWindowStart] at hr
    exact ackPending_spec h hinv hack le_rfl hinv.base_le hle hnear hr

/-- Acknowledgements leave the queue and the receiving half alone. -/
theorem ackPending_frame (ackWindowStart fuel pendingSeq : ℕ) (ch : NetReliableChannel) :
    SameReceiver ch (ackPending packet ackWindowStart fuel pendingSeq ch).1 ∧
      (ackPending packet ackWindowStart fuel pendingSeq ch).1.base = ch.base := by
  induction fuel generalizing pendingSeq ch with
  | zero => exact ⟨.refl ch, rfl⟩
  | succ fuel ih =>
    rw [ackPending]
    split_ifs
    · exact ⟨.refl ch, rfl⟩
    · exact ⟨.refl ch, rfl⟩
    · exact ih _ ch
    · have hrest := ih ((pendingSeq + 1) % maxSequence) (ch.releasePending pendingSeq).1
      refine ⟨SameReceiver.trans ?_ hrest.1, hrest.2⟩
      constructor <;> rfl

theorem processAck_frame (ch : NetReliableChannel) (packet : NetPacket) :
    SameReceiver ch (ch.processAck packet).1 ∧ (ch.processAck packet).1.base = ch.base := by
  rw [processAck]
  simp only
  split_ifs
  · exact ⟨.refl ch, rfl⟩
  · exact ⟨.refl ch, rfl⟩
  · exact ⟨.refl ch, rfl⟩
  · exact ackPending_frame _ _ _ ch

theorem addToQueue_outgoingQueue (ch : NetReliableChannel) (p : NetPacket)
    (h : ch.base.canEnqueue = true) :
    (ch.addToQueue p).1.base.outgoingQueue = ch.base.outgoingQueue ++ [p] := by
  simp [addToQueue, NetBaseChannel.addToQueue, h]

theorem addToQueue_canEnqueue (ch : NetReliableChannel) (p : NetPacket) :
    (ch.addToQueue p).1.base.canEnqueue = ch.base.canEnqueue := by
  rw [addToQueue, NetBaseChannel.addToQueue]
  split <;> simp

theorem Sends.submit {queue' : List NetPacket} (h : Sends queue ch s)
    (hle : s.next ≤ s.given.length) (hp : packet.property = .channeled)
    (hs : channeledHeaderSize ≤ packet.size) (hq : queue' = queue ++ [packet]) :
    Sends queue' (ch.addToQueue packet).1 (s.submitted packet) where
  localSequence := h.localSequence
  localWindowStart := h.localWindowStart
  queue_eq := by
    rw [hq, h.queue_eq, SelectiveRepeat.State.submitted, List.drop_append_of_le_length hle]
  pending := h.pending.mono fun i v _ _ hv hlt => by
    have hv' := hv hlt
    cases hp : v.packet with
    | none =>
      rw [hp] at hv'
      exact hv'
    | some q =>
      rw [hp] at hv'
      exact ⟨hv'.1, hv'.2.append packet⟩
  given_channeled := by
    intro p hm
    rcases List.mem_append.mp hm with hm | hm
    · exact h.given_channeled p hm
    · obtain rfl : p = packet := by simpa using hm
      exact ⟨hp, hs⟩

/-- A channel that has received no data sends only packets of its window. -/
theorem sendAndCheckQueue_spec {ctx : ChannelContext} (h : Sends ch.base.outgoingQueue ch s)
    (hinv : SelectiveRepeat.Inv windowSize s) (hidle : ch.mustSendAcks = false)
    (hn : ctx.connectNumber.toNat < maxConnectionNumber)
    {r : NetReliableChannel × List PeerCall × Bool} (hr : ch.sendAndCheckQueue ctx = r) :
    ∃ next', s.next ≤ next' ∧
      ReflTransGen (SelectiveRepeat.Step windowSize) s { s with next := next' } ∧
      Sends r.1.base.outgoingQueue r.1 { s with next := next' } ∧ SameReceiver ch r.1 ∧
      ∀ c ∈ r.2.1, ∃ i p, c = .sendUserData p ∧ s.base ≤ i ∧ i < next' ∧ Carries s.given i p := by
  have hacks : ch.sendAcks ctx = (ch, []) := by simp [sendAcks, hidle]
  obtain ⟨next', hle, hrun, hs⟩ := admit_spec h hinv
  have hinv' : SelectiveRepeat.Inv windowSize { s with next := next' } :=
    preserved_of_run (fun _ _ hi hs => hi.step hs) hinv hrun
  obtain ⟨hring, hcalls⟩ := sendPending_spec ctx maxSequence hn hs.pending le_rfl
    hinv'.base_le hinv'.next_lt rfl
  rw [← hs.localSequence, ← hs.localWindowStart] at hring hcalls
  rw [sendAndCheckQueue, sendNextPackets, hacks] at hr
  subst hr
  refine ⟨next', hle, hrun, ?_, ?_, hcalls⟩
  · rw [NetBaseChannel.checkQueue_outgoingQueue]
    exact ⟨hs.localSequence, hs.localWindowStart, hs.queue_eq, hring, hs.given_channeled⟩
  · refine SameReceiver.trans (admit_sameReceiver ch.base.outgoingQueue ch) ?_
    constructor <;> rfl

theorem sendAcks_base (ch : NetReliableChannel) (ctx : ChannelContext) :
    (ch.sendAcks ctx).1.base = ch.base ∧ (ch.sendAcks ctx).1.ordered = ch.ordered ∧
      (ch.sendAcks ctx).1.localSequence = ch.localSequence ∧
      (ch.sendAcks ctx).1.localWindowStart = ch.localWindowStart := by
  rw [sendAcks]
  split <;> exact ⟨rfl, rfl, rfl, rfl⟩

/-- Admission changes nothing of the base but the queue. -/
theorem admit_base (queue : List NetPacket) (ch : NetReliableChannel) :
    (fillWindow queue ch).base =
      { ch.base with outgoingQueue := (fillWindow queue ch).base.outgoingQueue } := by
  induction queue generalizing ch with
  | nil => rfl
  | cons packet queue ih =>
    rw [fillWindow]
    split
    · rfl
    · exact ih _

theorem sendAndCheckQueue_canEnqueue (ch : NetReliableChannel) (ctx : ChannelContext) :
    (ch.sendAndCheckQueue ctx).1.base.canEnqueue = ch.base.canEnqueue := by
  rw [sendAndCheckQueue, NetBaseChannel.checkQueue_canEnqueue, sendNextPackets,
    admit_base, (sendAcks_base ch ctx).1]

/-- A channel that was given nothing to send only reports. -/
theorem sendAndCheckQueue_quiet (ch : NetReliableChannel) (ctx : ChannelContext)
    (hq : ch.base.outgoingQueue = []) (hw : ch.localWindowStart = ch.localSequence) :
    ∃ flag, (ch.sendAndCheckQueue ctx).1 = { (ch.sendAcks ctx).1 with
        base := { ch.base with isAddedToPeerChannelSendQueue := flag } } ∧
      (ch.sendAndCheckQueue ctx).2.1 = (ch.sendAcks ctx).2 := by
  obtain ⟨hbase, -, hseq, hstart⟩ := sendAcks_base ch ctx
  have hq' : (ch.sendAcks ctx).1.base.outgoingQueue = [] := by rw [hbase, hq]
  have hadmit : fillWindow (ch.sendAcks ctx).1.base.outgoingQueue (ch.sendAcks ctx).1 =
      (ch.sendAcks ctx).1 := by
    rw [hq', fillWindow, ← hq']
  have hpending : sendPending ctx (ch.sendAcks ctx).1.localSequence maxSequence
      (ch.sendAcks ctx).1.localWindowStart (ch.sendAcks ctx).1.pendingPackets =
      ((ch.sendAcks ctx).1.pendingPackets, [], false) := by
    rw [hseq, hstart, hw, maxSequence_eq]
    exact if_pos rfl
  have hnext : ch.sendNextPackets ctx = ((ch.sendAcks ctx).1, (ch.sendAcks ctx).2,
      (ch.sendAcks ctx).1.mustSendAcks) := by
    rw [sendNextPackets, hadmit, hpending, List.append_nil, hq']
    simp
  rw [sendAndCheckQueue, hnext, hbase, NetBaseChannel.checkQueue]
  split
  · exact ⟨_, rfl, rfl⟩
  · exact ⟨_, rfl, rfl⟩

end Send

end NetReliableChannel

end LiteNet.Channels
