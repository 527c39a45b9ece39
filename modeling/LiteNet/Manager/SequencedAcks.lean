import LiteNet.Manager.ChannelAddress

/-! # Where the acks of sequenced channels go

The ack of a reliable sequenced channel is built without a channel id and is never
given one, so it is taken to the channel 0, which is of another kind.
-/

namespace LiteNet.Channels.NetSequencedChannel

open Wire

variable {ch : NetSequencedChannel} {ctx : ChannelContext}

/-- What a send does about data leaves the ack that is owed as it is. -/
structure SameAck (ch ch' : NetSequencedChannel) : Prop where
  reliable : ch'.reliable = ch.reliable
  mustSendAck : ch'.mustSendAck = ch.mustSendAck
  ackPacket : ch'.ackPacket = ch.ackPacket

theorem resendLast_sameAck : SameAck ch (ch.resendLast ctx).1 := by
  rw [resendLast]
  dsimp only
  split
  · split <;> exact ⟨rfl, rfl, rfl⟩
  · exact ⟨rfl, rfl, rfl⟩

theorem sendQueued_sameAck (queue : List NetPacket) : SameAck ch (sendQueued ctx queue ch).1 := by
  induction queue generalizing ch with
  | nil => exact ⟨rfl, rfl, rfl⟩
  | cons packet queue ih =>
    rw [sendQueued]
    split
    · exact ⟨ih.reliable, ih.mustSendAck, ih.ackPacket⟩
    · exact ⟨ih.reliable, ih.mustSendAck, ih.ackPacket⟩

theorem sendAndCheckQueue_ack (ctx : ChannelContext) (reliable : ch.reliable = true)
    (owed : ch.mustSendAck = true)
    {packet : NetPacket} (ack : ch.ackPacket = some packet) :
    ∃ ack, .sendUserData ack ∈ (ch.sendAndCheckQueue ctx).2.1 ∧
      (ch.sendAndCheckQueue ctx).1.ackPacket = some ack := by
  rw [sendAndCheckQueue, sendNextPackets]
  dsimp only
  have hsent : SameAck ch (if ch.reliable && ch.base.outgoingQueue.isEmpty then ch.resendLast ctx
      else sendQueued ctx ch.base.outgoingQueue ch).1 := by
    split
    · exact resendLast_sameAck
    · exact sendQueued_sameAck _
  generalize (if ch.reliable && ch.base.outgoingQueue.isEmpty then ch.resendLast ctx
    else sendQueued ctx ch.base.outgoingQueue ch) = sent at hsent ⊢
  rw [sendAck, hsent.ackPacket, ack]
  simp only [hsent.reliable, hsent.mustSendAck, reliable, owed, Bool.and_self, if_true]
  exact ⟨_, List.mem_append_right _ List.mem_cons_self, rfl⟩

end LiteNet.Channels.NetSequencedChannel

namespace LiteNet.Manager
open Library Wire Channels Relation

namespace NetManager

variable {a b m : NetManager} {r s : PeerRef} {idx : UInt8} {packet : NetPacket}

/-- The receiver `s` of `b` has processed the packet that the sender `r` of `a` keeps sending, sends
the ack it owes, and the sender is handed that ack as `packet`. -/
structure AckArrives (a b : NetManager) (r s : PeerRef) (idx : UInt8) (packet : NetPacket) :
    Prop where
  sequenced : idx.toNat % channelTypeCount = DeliveryMethod.reliableSequenced.code
  exchange : ∃ (sender receiver : NetSequencedChannel) (last ack : NetPacket)
      (ctx : ChannelContext),
    (a.peerAt r).channels idx = some (.sequenced sender) ∧ sender.lastPacket = some last ∧
    (b.peerAt s).channels idx = some (.sequenced receiver) ∧ receiver.mustSendAck = true ∧
    receiver.remoteSequence = last.sequence ∧
    .sendUserData ack ∈ (receiver.sendAndCheckQueue ctx).2.1 ∧
    (receiver.sendAndCheckQueue ctx).1.ackPacket = some ack ∧
    packet.wire = (ack.setConnectionNumber (b.peerAt s).connectNumber).wire

/-- `process_packet` releases the last packet of the channel `idx`. -/
def Releases (m : NetManager) (r : PeerRef) (idx : UInt8) (packet : NetPacket) : Prop :=
  ∃ ch, ((m.processPacket r packet).peerAt r).channels idx = some (.sequenced ch) ∧
    ch.lastPacket = none

/-- An ack leaves all channels alone but the one it names. -/
theorem processPacket_others (hm : Consistent m) (hr : r < m.peerCount)
    (ack : packet.property = .ack) (other : idx ≠ packet.channelId) :
    ((m.processPacket r packet).peerAt r).channels idx = (m.peerAt r).channels idx := by
  have hrecycle : ((m.poolRecycle packet).peerAt r).channels idx = (m.peerAt r).channels idx := by
    rw [(m.poolRecycle_aside packet).peerAt]
  rw [processPacket, processPacketTo, processPacketWith]
  simp only [ack]
  split
  · exact hrecycle
  · rw [if_neg (by decide)]
    split
    · exact hrecycle
    · next hc hnumber =>
      have hheard : Consistent (m.setPeer r { m.peerAt r with timeSinceLastPacket := 0 }) :=
        hm.setPeer (.clock _ 0)
      have hkeeps := processChanneled_keepsTo hheard hr packet
      exact (hkeeps.others idx other).trans (by rw [setPeer_self])

theorem AckArrives.misrouted (h : AckArrives a b r s idx packet) (hb : Reachable Initial Step b)
    (hs : s < b.peerCount) : packet.property = .ack ∧ packet.channelId ≠ idx := by
  obtain ⟨-, receiver, -, ack, ctx, -, -, hreceiver, -, -, -, hack, hwire⟩ := h.exchange
  have hchannel := ((consistent_of_reachable hb).wellFormed s hs).channels idx _ hreceiver
  have haddressed : receiver.Addressed idx := hchannel.2
  obtain ⟨hproperty, hid, hsize⟩ :=
    (NetSequencedChannel.sendAndCheckQueue_addressed haddressed ctx).1.ack ack hack
  have hlt : 3 < (ack.setConnectionNumber (b.peerAt s).connectNumber).size := hsize
  constructor
  · rw [NetPacket.property_of_wire hwire (by omega), NetPacket.property_setConnectionNumber,
      hproperty]
  · rw [NetPacket.channelId, NetPacket.byte_of_wire hwire hlt, ← NetPacket.channelId,
      NetPacket.channelId_setConnectionNumber, hid]
    rintro rfl
    exact absurd h.sequenced (by decide)

/-- No ack that arrives is taken to its channel, and no last packet is released by one. -/
theorem ack_not_releases (ha : Reachable Initial Step a) (hr : r < a.peerCount)
    (hb : Reachable Initial Step b) (hs : s < b.peerCount) (h : AckArrives a b r s idx packet) :
    packet.channelId ≠ idx ∧ ¬ Releases a r idx packet := by
  obtain ⟨hkind, hother⟩ := h.misrouted hb hs
  refine ⟨hother, fun ⟨ch, hch, hnone⟩ => ?_⟩
  obtain ⟨sender, -, last, -, -, hsender, hlast, -⟩ := h.exchange
  rw [processPacket_others (consistent_of_reachable ha) hr hkind hother.symm, hsender] at hch
  cases hch
  exact absurd (hlast.symm.trans hnone) nofun

/-- A client that sends one message and keeps it. -/
def sequencedSender : NetManager :=
  (connectedClient.act (.send 0 [7] 0 1 0 .reliableSequenced 0)).act (.updateLogic 15)

/-- Another one that receives it. -/
def sequencedReceiver : NetManager :=
  connectedClient.act (.receive ((sequencedSender.sent.getLast?.map Datagram.bytes).getD [])
    ⟨2, 1, 2, 0⟩)

theorem sequencedSender_reachable : Reachable Initial Step sequencedSender :=
  (connectedClient_reachable.tail ⟨.send .., show 0 < _ by decide +kernel, rfl⟩).tail
    ⟨.updateLogic _, show (1 : ℤ) ≤ 15 by decide, rfl⟩

theorem sequencedReceiver_reachable : Reachable Initial Step sequencedReceiver :=
  connectedClient_reachable.tail ⟨.receive .., show _ ≤ maxPacketSize by decide +kernel, rfl⟩

/-- The channel of a peer, if it is a sequenced one. -/
def sequencedChannel (m : NetManager) (r : PeerRef) (idx : UInt8) : Option NetSequencedChannel :=
  match (m.peerAt r).channels idx with
  | some (.sequenced ch) => some ch
  | _ => none

theorem sequencedChannel_eq {ch : NetSequencedChannel} (h : m.sequencedChannel r idx = some ch) :
    (m.peerAt r).channels idx = some (.sequenced ch) := by
  rw [sequencedChannel] at h
  split at h
  · next hch => rw [hch, Option.some.inj h]
  · cases h

/-- The receiver has the message, and its ack is on the way. -/
theorem exists_ackArrives : ∃ packet, AckArrives sequencedSender sequencedReceiver 0 0 3 packet := by
  have hlast : ((sequencedSender.sequencedChannel 0 3).bind (·.lastPacket)).map (·.sequence) =
      some 1 := by decide +kernel
  have howed : (sequencedReceiver.sequencedChannel 0 3).map (fun ch => (ch.reliable,
      ch.mustSendAck, ch.remoteSequence, ch.ackPacket.isSome)) = some (true, true, 1, true) := by
    decide +kernel
  obtain ⟨last, hsender, hnumber⟩ := Option.map_eq_some_iff.mp hlast
  obtain ⟨sender, hsender, hlast⟩ := Option.bind_eq_some_iff.mp hsender
  obtain ⟨receiver, hreceiver, howed⟩ := Option.map_eq_some_iff.mp howed
  obtain ⟨hreliable, hmust, hremote, hack⟩ : receiver.reliable = true ∧
      receiver.mustSendAck = true ∧ receiver.remoteSequence = 1 ∧
      receiver.ackPacket.isSome = true := by simpa using howed
  obtain ⟨packet, hpacket⟩ := Option.isSome_iff_exists.mp hack
  obtain ⟨ack, hsent, hstored⟩ := NetSequencedChannel.sendAndCheckQueue_ack ⟨0, 0, 0⟩
    hreliable hmust hpacket
  exact ⟨_, by decide, sender, receiver, last, ack, ⟨0, 0, 0⟩, sequencedChannel_eq hsender, hlast,
    sequencedChannel_eq hreceiver, hmust, hremote.trans hnumber.symm, hsent, hstored, rfl⟩

theorem ack_not_releases_sequencedSender : ∃ packet,
    AckArrives sequencedSender sequencedReceiver 0 0 3 packet ∧ packet.channelId ≠ 3 ∧
      ¬ Releases sequencedSender 0 3 packet := by
  obtain ⟨packet, harrives⟩ := exists_ackArrives
  exact ⟨packet, harrives, ack_not_releases sequencedSender_reachable (by decide +kernel)
    sequencedReceiver_reachable (by decide +kernel) harrives⟩

/-- The ack of that message is taken to the channel 0. -/
theorem not_always_releases : ¬ ∀ (a b : NetManager) (r s : PeerRef) (idx : UInt8)
    (packet : NetPacket), Reachable Initial Step a → r < a.peerCount → Reachable Initial Step b →
    s < b.peerCount → AckArrives a b r s idx packet →
      packet.channelId = idx ∧ Releases a r idx packet := by
  intro h
  obtain ⟨packet, harrives⟩ := exists_ackArrives
  have hrouted := (h sequencedSender sequencedReceiver 0 0 3 packet sequencedSender_reachable
    (by decide +kernel) sequencedReceiver_reachable (by decide +kernel) harrives).1
  exact (harrives.misrouted sequencedReceiver_reachable (by decide +kernel)).2 hrouted

end NetManager

end LiteNet.Manager
