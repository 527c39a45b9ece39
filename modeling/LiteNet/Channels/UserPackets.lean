import LiteNet.Channels.ReliableSender
import LiteNet.Channels.Sequenced

/-! # What a channel hands to its peer

Whatever a channel keeps to send is a packet of the user or an acknowledgement, and
only the sending methods send. So the kinds of the datagrams of a session are known
without looking into its channels.
-/

namespace LiteNet.Channels
open Library Wire

structure UserPacket (p : NetPacket) : Prop where
  property : p.property = .unreliable ∨ p.property = .channeled ∨ p.property = .ack
  size_pos : 1 ≤ p.size

namespace UserPacket

variable {p : NetPacket}

theorem write (h : UserPacket p) {i : ℕ} (hp : 0 < i) (bytes : Bytes) :
    UserPacket (p.write i bytes) where
  property := by
    rw [NetPacket.property_write _ _ _ hp]
    exact h.property
  size_pos := h.size_pos

theorem setConnectionNumber (h : UserPacket p) (number : UInt8) :
    UserPacket (p.setConnectionNumber number) where
  property := by
    rw [NetPacket.property_setConnectionNumber]
    exact h.property
  size_pos := h.size_pos

theorem setSequence (h : UserPacket p) (v : ℕ) : UserPacket (p.setSequence v) :=
  h.write one_pos _

theorem setChannelId (h : UserPacket p) (id : UInt8) : UserPacket (p.setChannelId id) :=
  h.write three_pos _

theorem setAckBit (h : UserPacket p) (j : ℕ) : UserPacket (setAckBit p j) :=
  h.write (by have := three_lt_ackByte j; omega) _

theorem clearAckBit (h : UserPacket p) (j : ℕ) : UserPacket (clearAckBit p j) :=
  h.write (by have := three_lt_ackByte j; omega) _

theorem markFragmented (h : UserPacket p) : UserPacket p.markFragmented where
  property := by
    rw [NetPacket.property_markFragmented]
    exact h.property
  size_pos := h.size_pos

theorem new_ack (size : ℕ) (h : 3 ≤ size + PacketProperty.ack.getHeaderSize) :
    UserPacket (.new .ack size h) where
  property := by simp [NetPacket.new]
  size_pos := by rw [NetPacket.size_new]; omega

end UserPacket

namespace PeerCall

/-- The call hands a packet to the application. -/
def Delivers : PeerCall → Prop
  | addReliablePacket .. => True
  | createReceiveEvent .. => True
  | _ => False

/-- The call sends nothing. -/
def Silent (call : PeerCall) : Prop := ∀ packet, call ≠ sendUserData packet

/-- The call is one of the sending methods: it recycles, or sends a packet of the user. -/
def Sends : PeerCall → Prop
  | sendUserData packet => UserPacket packet
  | poolRecycle _ => True
  | _ => False

end PeerCall

theorem addToPeerChannelSendQueue_silent (b : NetBaseChannel) :
    ∀ c ∈ b.addToPeerChannelSendQueue.2, c.Silent ∧ ¬ c.Delivers := by
  rw [NetBaseChannel.addToPeerChannelSendQueue]
  split <;> simp [PeerCall.Silent, PeerCall.Delivers]

theorem addToQueue_silent (b : NetBaseChannel) (packet : NetPacket) :
    ∀ c ∈ (b.addToQueue packet).2, c.Silent ∧ ¬ c.Delivers := by
  rw [NetBaseChannel.addToQueue]
  split
  · simp [PeerCall.Silent, PeerCall.Delivers]
  · exact addToPeerChannelSendQueue_silent _

theorem mem_addToQueue {b : NetBaseChannel} {packet p : NetPacket}
    (h : p ∈ (b.addToQueue packet).1.outgoingQueue) : p ∈ b.outgoingQueue ∨ p = packet := by
  rw [NetBaseChannel.addToQueue] at h
  split at h
  · exact .inl h
  · simpa using h

namespace NetReliableChannel

/-- All that the channel may still send is a user packet. -/
structure UserPackets (ch : NetReliableChannel) : Prop where
  queue : ∀ p ∈ ch.base.outgoingQueue, UserPacket p
  acks : UserPacket ch.outgoingAcks
  pending : ∀ i p, (ch.pendingPackets i).packet = some p → UserPacket p

variable {ch : NetReliableChannel} {packet : NetPacket}

theorem UserPackets.new (ordered : Bool) (id : UInt8) : (new ordered id).UserPackets where
  queue := by simp [NetReliableChannel.new, NetBaseChannel.new]
  acks := (UserPacket.new_ack _ _).setChannelId id
  pending := by simp [NetReliableChannel.new, PendingPacket.new]

theorem UserPackets.sameSender {ch' : NetReliableChannel} (h : ch.UserPackets)
    (hs : SameSender ch ch') (ha : UserPacket ch'.outgoingAcks) : ch'.UserPackets where
  queue := by
    rw [hs.outgoingQueue]
    exact h.queue
  acks := ha
  pending := by
    rw [hs.pendingPackets]
    exact h.pending

private theorem cleanOldData_user {acks : NetPacket} (h : UserPacket acks)
    (fuel windowStart newWindowStart : ℕ) :
    UserPacket (cleanOldData fuel acks windowStart newWindowStart).1 := by
  induction fuel generalizing acks windowStart with
  | zero => exact h
  | succ fuel ih =>
    rw [cleanOldData]
    split
    · exact h
    · exact ih (h.clearAckBit _) _

private theorem moveWindow_user (h : ch.UserPackets) (relate : ℕ) :
    (ch.moveWindow relate).UserPackets where
  queue := h.queue
  acks := cleanOldData_user (h.acks.setSequence _) _ _ _
  pending := h.pending

private theorem deliver_silent (ch : NetReliableChannel) (packet : NetPacket) :
    ∀ c ∈ (ch.deliver packet).2, c.Silent := by
  rw [deliver]
  split
  · split <;> simp [PeerCall.Silent]
  · split <;> simp [PeerCall.Silent]

private theorem acceptPacket_user (h : ch.UserPackets) (packet : NetPacket) :
    (ch.acceptPacket packet).1.UserPackets ∧ ∀ c ∈ (ch.acceptPacket packet).2.1, c.Silent := by
  have hs := acceptPacket_sameSender ch packet
  have hq := addToPeerChannelSendQueue_silent ch.base
  rw [acceptPacket] at hs ⊢
  split at hs
  · next ht =>
    rw [if_pos ht]
    exact ⟨h.sameSender hs h.acks, fun c hc => (hq c hc).1⟩
  · next ht =>
    rw [if_neg ht]
    refine ⟨h.sameSender hs ?_, fun c hc => ?_⟩
    · rw [(deliver_outgoingAcks _ _).1]
      exact h.acks.setAckBit _
    · rcases List.mem_append.mp hc with hc | hc
      · exact (hq c hc).1
      · exact deliver_silent _ _ c hc

private theorem clear_silent (pending : PendingPacket) :
    ∀ c ∈ pending.clear.2, c.Silent ∧ ¬ c.Delivers := by
  rw [PendingPacket.clear]
  split <;> simp [PeerCall.Silent, PeerCall.Delivers]

private theorem releasePending_user (h : ch.UserPackets) (pendingSeq : ℕ) :
    (ch.releasePending pendingSeq).1.UserPackets ∧
      ∀ c ∈ (ch.releasePending pendingSeq).2, c.Silent ∧ ¬ c.Delivers := by
  rw [releasePending]
  refine ⟨⟨h.queue, h.acks, fun i p hp => ?_⟩, ?_⟩
  · dsimp only at hp
    by_cases hi : i = ringSlot pendingSeq
    · rw [hi, Function.update_self, PendingPacket.clear] at hp
      split at hp
      · next hn => exact h.pending _ p hp
      · exact absurd hp (by simp)
    · rw [Function.update_of_ne hi] at hp
      exact h.pending i p hp
  · exact clear_silent _

private theorem ackPending_user (packet : NetPacket) (ackWindowStart fuel pendingSeq : ℕ)
    (h : ch.UserPackets) :
    (ackPending packet ackWindowStart fuel pendingSeq ch).1.UserPackets ∧
      ∀ c ∈ (ackPending packet ackWindowStart fuel pendingSeq ch).2, c.Silent ∧ ¬ c.Delivers := by
  induction fuel generalizing pendingSeq ch with
  | zero => exact ⟨h, by simp [ackPending]⟩
  | succ fuel ih =>
    rw [ackPending]
    split
    · exact ⟨h, by simp⟩
    · split
      · exact ⟨h, by simp⟩
      · split
        · exact ih _ h
        · have hr := releasePending_user h pendingSeq
          have hrest := ih ((pendingSeq + 1) % maxSequence) hr.1
          refine ⟨hrest.1, fun c hc => ?_⟩
          rcases List.mem_append.mp hc with hc | hc
          · exact hr.2 c hc
          · exact hrest.2 c hc

private theorem processAck_user (h : ch.UserPackets) (packet : NetPacket) :
    (ch.processAck packet).1.UserPackets ∧
      ∀ c ∈ (ch.processAck packet).2, c.Silent ∧ ¬ c.Delivers := by
  rw [processAck]
  split
  · exact ⟨h, by simp⟩
  · dsimp only
    split
    · exact ⟨h, by simp⟩
    · split
      · exact ⟨h, by simp⟩
      · exact ackPending_user _ _ _ _ h

/-- Processing a packet keeps what is to be sent and sends nothing; an acknowledgement delivers
nothing either. -/
theorem processPacket_user (h : ch.UserPackets) (packet : NetPacket) :
    (ch.processPacket packet).1.UserPackets ∧
      ∀ c ∈ (ch.processPacket packet).2.1, c.Silent ∧ (packet.property = .ack → ¬ c.Delivers) := by
  rw [processPacket]
  split
  · have ha := processAck_user h packet
    exact ⟨ha.1, fun c hc => ⟨(ha.2 c hc).1, fun _ => (ha.2 c hc).2⟩⟩
  · next hp =>
    have hweak : ∀ {r : NetReliableChannel × List PeerCall × Bool},
        (r.1.UserPackets ∧ ∀ c ∈ r.2.1, c.Silent) → r.1.UserPackets ∧
          ∀ c ∈ r.2.1, c.Silent ∧ (packet.property = .ack → ¬ c.Delivers) :=
      fun hr => ⟨hr.1, fun c hc => ⟨hr.2 c hc, fun ha => absurd ha hp⟩⟩
    dsimp only
    split
    · exact ⟨h, by simp⟩
    · split
      · exact ⟨h, by simp⟩
      · split
        · exact ⟨h, by simp⟩
        · split
          · exact ⟨h, by simp⟩
          · split
            · exact hweak (acceptPacket_user (moveWindow_user h _) _)
            · exact hweak (acceptPacket_user h _)

private theorem admit_user (ch : NetReliableChannel) (queue : List NetPacket)
    (hq : ∀ p ∈ queue, UserPacket p) (ha : UserPacket ch.outgoingAcks)
    (hp : ∀ i p, (ch.pendingPackets i).packet = some p → UserPacket p) :
    (fillWindow queue ch).UserPackets := by
  induction queue generalizing ch with
  | nil => exact ⟨by simp [fillWindow], ha, hp⟩
  | cons packet queue ih =>
    rw [fillWindow]
    split
    · exact ⟨hq, ha, hp⟩
    · refine ih _ (fun p h => hq p (List.mem_cons_of_mem _ h)) ha (fun i p hi => ?_)
      rw [admitPacket] at hi
      dsimp only at hi
      by_cases hs : i = ringSlot ch.localSequence
      · rw [hs, Function.update_self] at hi
        cases hi
        exact ((hq packet List.mem_cons_self).setSequence _).setChannelId _
      · rw [Function.update_of_ne hs] at hi
        exact hp i p hi

private theorem trySend_user {pending : PendingPacket} (ctx : ChannelContext)
    (h : ∀ p, pending.packet = some p → UserPacket p) :
    (∀ p, (pending.trySend ctx).1.packet = some p → UserPacket p) ∧
      ∀ c ∈ (pending.trySend ctx).2.1, c.Sends := by
  rw [PendingPacket.trySend]
  split
  · exact ⟨h, by simp⟩
  · next p hp =>
    split
    · exact ⟨h, by simp⟩
    · have hu := (h p hp).setConnectionNumber ctx.connectNumber
      exact ⟨by simpa using hu, by simpa [PeerCall.Sends] using hu⟩

private theorem sendPending_user (ctx : ChannelContext) (localSequence fuel pendingSeq : ℕ)
    {ring : Ring PendingPacket} (h : ∀ i p, (ring i).packet = some p → UserPacket p) :
    (∀ i p, ((sendPending ctx localSequence fuel pendingSeq ring).1 i).packet = some p →
        UserPacket p) ∧
      ∀ c ∈ (sendPending ctx localSequence fuel pendingSeq ring).2.1, c.Sends := by
  induction fuel generalizing pendingSeq ring with
  | zero => exact ⟨h, by simp [sendPending]⟩
  | succ fuel ih =>
    rw [sendPending]
    split
    · exact ⟨h, by simp⟩
    · have ht := trySend_user ctx (h (ringSlot pendingSeq))
      have hring : ∀ i p, (Function.update ring (ringSlot pendingSeq)
          ((ring (ringSlot pendingSeq)).trySend ctx).1 i).packet = some p → UserPacket p := by
        intro i p hi
        by_cases hs : i = ringSlot pendingSeq
        · rw [hs, Function.update_self] at hi
          exact ht.1 p hi
        · rw [Function.update_of_ne hs] at hi
          exact h i p hi
      have hrest := ih ((pendingSeq + 1) % maxSequence) hring
      refine ⟨hrest.1, fun c hc => ?_⟩
      rcases List.mem_append.mp hc with hc | hc
      · exact ht.2 c hc
      · exact hrest.2 c hc

private theorem sendAcks_user (h : ch.UserPackets) (ctx : ChannelContext) :
    (ch.sendAcks ctx).1.UserPackets ∧ ∀ c ∈ (ch.sendAcks ctx).2, c.Sends := by
  rw [sendAcks]
  split
  · have ha := h.acks.setConnectionNumber ctx.connectNumber
    exact ⟨⟨h.queue, ha, h.pending⟩, by simpa [PeerCall.Sends] using ha⟩
  · exact ⟨h, by simp⟩

theorem addToQueue_user (h : ch.UserPackets) (hp : UserPacket packet) :
    (ch.addToQueue packet).1.UserPackets where
  queue := fun p hm => (mem_addToQueue hm).elim (h.queue p) (fun he => he ▸ hp)
  acks := h.acks
  pending := h.pending

/-- Sending keeps what is left to send, and sends user packets only. -/
theorem sendAndCheckQueue_user (h : ch.UserPackets) (ctx : ChannelContext) :
    (ch.sendAndCheckQueue ctx).1.UserPackets ∧
      ∀ c ∈ (ch.sendAndCheckQueue ctx).2.1, c.Sends := by
  have ha := sendAcks_user h ctx
  have hadmit := admit_user (ch.sendAcks ctx).1 _ ha.1.queue ha.1.acks ha.1.pending
  have hsent := sendPending_user ctx
    (fillWindow (ch.sendAcks ctx).1.base.outgoingQueue (ch.sendAcks ctx).1).localSequence maxSequence
    (fillWindow (ch.sendAcks ctx).1.base.outgoingQueue (ch.sendAcks ctx).1).localWindowStart
    hadmit.pending
  rw [sendAndCheckQueue, sendNextPackets]
  refine ⟨⟨?_, hadmit.acks, hsent.1⟩, fun c hc => ?_⟩
  · simpa using hadmit.queue
  · rcases List.mem_append.mp hc with hc | hc
    · exact ha.2 c hc
    · exact hsent.2 c hc

end NetReliableChannel

namespace NetSequencedChannel

/-- All that the channel may still send is a user packet. -/
structure UserPackets (ch : NetSequencedChannel) : Prop where
  queue : ∀ p ∈ ch.base.outgoingQueue, UserPacket p
  ack : ∀ p, ch.ackPacket = some p → UserPacket p
  last : ∀ p, ch.lastPacket = some p → UserPacket p

variable {ch : NetSequencedChannel} {packet : NetPacket}

theorem UserPackets.new (reliable : Bool) (id : UInt8) : (new reliable id).UserPackets where
  queue := by simp [NetSequencedChannel.new, NetBaseChannel.new]
  ack := by
    cases reliable <;> simp [NetSequencedChannel.new, UserPacket.new_ack]
  last := by simp [NetSequencedChannel.new]

private theorem processAck_user (h : ch.UserPackets) (packet : NetPacket) :
    (ch.processAck packet).1.UserPackets ∧
      ∀ c ∈ (ch.processAck packet).2, c.Silent ∧ ¬ c.Delivers := by
  rw [processAck]
  split
  · exact ⟨h, by simp⟩
  · split
    · exact ⟨⟨h.queue, h.ack, by simp⟩, by simp [PeerCall.Silent, PeerCall.Delivers]⟩
    · exact ⟨h, by simp⟩

private theorem processData_user (h : ch.UserPackets) (packet : NetPacket) :
    (ch.processData packet).1.UserPackets ∧ ∀ c ∈ (ch.processData packet).2.1, c.Silent := by
  rw [processData]
  split
  · exact ⟨⟨h.queue, h.ack, h.last⟩, by simp [PeerCall.Silent]⟩
  · exact ⟨h, by simp⟩

/-- Processing a packet keeps what is to be sent and sends nothing; an acknowledgement delivers
nothing either. -/
theorem processPacket_user (h : ch.UserPackets) (packet : NetPacket) :
    (ch.processPacket packet).1.UserPackets ∧
      ∀ c ∈ (ch.processPacket packet).2.1, c.Silent ∧ (packet.property = .ack → ¬ c.Delivers) := by
  rw [processPacket]
  split
  · exact ⟨h, by simp⟩
  · split
    · have ha := processAck_user h packet
      exact ⟨ha.1, fun c hc => ⟨(ha.2 c hc).1, fun _ => (ha.2 c hc).2⟩⟩
    · next hp =>
      have hd := processData_user h packet
      dsimp only
      split
      · have hq := addToPeerChannelSendQueue_silent (ch.processData packet).1.base
        refine ⟨⟨by simpa using hd.1.queue, hd.1.ack, hd.1.last⟩, fun c hc => ?_⟩
        refine ⟨?_, fun ha => absurd ha hp⟩
        rcases List.mem_append.mp hc with hc | hc
        · exact hd.2 c hc
        · exact (hq c hc).1
      · exact ⟨hd.1, fun c hc => ⟨hd.2 c hc, fun ha => absurd ha hp⟩⟩

private theorem sendQueued_user (ctx : ChannelContext) (queue : List NetPacket)
    (hq : ∀ p ∈ queue, UserPacket p) (ha : ∀ p, ch.ackPacket = some p → UserPacket p)
    (hl : ∀ p, ch.lastPacket = some p → UserPacket p) :
    (sendQueued ctx queue ch).1.UserPackets ∧ ∀ c ∈ (sendQueued ctx queue ch).2, c.Sends := by
  induction queue generalizing ch with
  | nil => exact ⟨⟨by simp [sendQueued], ha, hl⟩, by simp [sendQueued]⟩
  | cons packet queue ih =>
    have hu := (((hq packet List.mem_cons_self).setSequence
      ((ch.localSequence + 1) % maxSequence)).setChannelId ch.id).setConnectionNumber
      ctx.connectNumber
    have htail := fun p h => hq p (List.mem_cons_of_mem _ h)
    rw [sendQueued]
    split
    · have hrest := @ih { ch with
        localSequence := (ch.localSequence + 1) % maxSequence
        lastPacketSendTime := ctx.currentTime
        lastPacket := some _ } htail ha (fun p hp => by cases hp; exact hu)
      refine ⟨hrest.1, fun c hc => ?_⟩
      rcases List.mem_cons.mp hc with rfl | hc
      · exact hu
      · exact hrest.2 c hc
    · have hrest := @ih { ch with
        localSequence := (ch.localSequence + 1) % maxSequence } htail ha hl
      refine ⟨hrest.1, fun c hc => ?_⟩
      rcases List.mem_cons.mp hc with rfl | hc
      · exact hu
      · rcases List.mem_cons.mp hc with rfl | hc
        · trivial
        · exact hrest.2 c hc

private theorem resendLast_user (h : ch.UserPackets) (ctx : ChannelContext) :
    (ch.resendLast ctx).1.UserPackets ∧ ∀ c ∈ (ch.resendLast ctx).2, c.Sends := by
  rw [resendLast]
  split
  · split
    · exact ⟨h, by simp⟩
    · next p hp =>
      have hu := (h.last p hp).setConnectionNumber ctx.connectNumber
      exact ⟨⟨h.queue, h.ack, by simpa using hu⟩, by simpa [PeerCall.Sends] using hu⟩
  · exact ⟨h, by simp⟩

private theorem sendAck_user (h : ch.UserPackets) (ctx : ChannelContext) :
    (ch.sendAck ctx).1.UserPackets ∧ ∀ c ∈ (ch.sendAck ctx).2, c.Sends := by
  rw [sendAck]
  split
  · exact ⟨h, by simp⟩
  · next ack ha =>
    split
    · have hu := ((h.ack ack ha).setSequence ch.remoteSequence).setConnectionNumber
        ctx.connectNumber
      exact ⟨⟨h.queue, by simpa using hu, h.last⟩, by simpa [PeerCall.Sends] using hu⟩
    · exact ⟨h, by simp⟩

theorem addToQueue_user (h : ch.UserPackets) (hp : UserPacket packet) :
    (ch.addToQueue packet).1.UserPackets where
  queue := fun p hm => (mem_addToQueue hm).elim (h.queue p) (fun he => he ▸ hp)
  ack := h.ack
  last := h.last

/-- Sending keeps what is left to send, and sends user packets only. -/
theorem sendAndCheckQueue_user (h : ch.UserPackets) (ctx : ChannelContext) :
    (ch.sendAndCheckQueue ctx).1.UserPackets ∧
      ∀ c ∈ (ch.sendAndCheckQueue ctx).2.1, c.Sends := by
  have hnext : (ch.sendNextPackets ctx).1.UserPackets ∧
      ∀ c ∈ (ch.sendNextPackets ctx).2.1, c.Sends := by
    rw [sendNextPackets]
    split
    · have hs := resendLast_user h ctx
      have ha := sendAck_user hs.1 ctx
      exact ⟨ha.1, fun c hc => (List.mem_append.mp hc).elim (hs.2 c) (ha.2 c)⟩
    · have hs := sendQueued_user ctx _ h.queue h.ack h.last
      have ha := sendAck_user hs.1 ctx
      exact ⟨ha.1, fun c hc => (List.mem_append.mp hc).elim (hs.2 c) (ha.2 c)⟩
  rw [sendAndCheckQueue]
  exact ⟨⟨by simpa using hnext.1.queue, hnext.1.ack, hnext.1.last⟩, hnext.2⟩

end NetSequencedChannel

end LiteNet.Channels
