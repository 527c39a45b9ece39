import LiteNet.Channels.UserPackets

/-! # Channels keep to their index

A channel that was made for an index stamps it on the packets it sends, keeps only
packets of that index, and reports the method that the index stands for.
-/

namespace LiteNet.Channels
open Library Wire

/-- The call concerns packets of the channel `idx` only. -/
def PeerCall.Addressed (idx : UInt8) : PeerCall → Prop
  | addReliablePacket method packet =>
    method.code = idx.toNat % channelTypeCount ∧ packet.channelId = idx
  | createReceiveEvent _ method channelNumber _ =>
    method.code = idx.toNat % channelTypeCount ∧
      channelNumber = UInt8.ofNat (idx.toNat / channelTypeCount)
  | sendUserData packet => packet.property = .ack ∨ packet.channelId = idx
  | _ => True

variable {idx : UInt8} {packet : NetPacket}

theorem addToPeerChannelSendQueue_addressed (b : NetBaseChannel) :
    ∀ c ∈ b.addToPeerChannelSendQueue.2, c.Addressed idx := by
  rw [NetBaseChannel.addToPeerChannelSendQueue]
  split <;> simp [PeerCall.Addressed]

namespace NetReliableChannel

structure Addressed (idx : UInt8) (ch : NetReliableChannel) : Prop where
  id : ch.id = idx
  method : ch.deliveryMethod.code = idx.toNat % channelTypeCount
  acks : ch.outgoingAcks.property = .ack
  held : ∀ k p, ch.receivedPackets k = some p → p.channelId = idx
  pending : ∀ k p, (ch.pendingPackets k).packet = some p → p.channelId = idx

variable {ch : NetReliableChannel}

theorem Addressed.new {ordered : Bool} (h : idx.toNat % channelTypeCount = if ordered then 2 else 0) :
    (new ordered idx).Addressed idx where
  id := rfl
  method := by
    rw [h]
    cases ordered <;> rfl
  acks := by simp [NetReliableChannel.new, NetPacket.new]
  held := nofun
  pending := nofun

private theorem drainReceived_addressed (fuel : ℕ) {ring : Ring (Option NetPacket)}
    (h : ∀ k p, ring k = some p → p.channelId = idx) (sequence : ℕ) :
    (∀ k p, (drain (fun held => held) none fuel ring sequence).1 k = some p → p.channelId = idx) ∧
      ∀ p ∈ (drain (fun held => held) none fuel ring sequence).2.2, p.channelId = idx := by
  induction fuel generalizing ring sequence with
  | zero => exact ⟨h, by simp [drain]⟩
  | succ fuel ih =>
    rw [drain]
    split
    · exact ⟨h, by simp⟩
    · next held hk =>
      have hrest := @ih (Function.update ring (ringSlot sequence) none) (fun k p hp => by
        by_cases he : k = ringSlot sequence
        · rw [he, Function.update_self] at hp
          cases hp
        · rw [Function.update_of_ne he] at hp
          exact h k p hp) ((sequence + 1) % maxSequence)
      exact ⟨hrest.1, List.forall_mem_cons.mpr ⟨h _ _ hk, hrest.2⟩⟩

private theorem deliver_addressed (ch : NetReliableChannel) (h : ch.Addressed idx)
    (hp : packet.channelId = idx) :
    (ch.deliver packet).1.Addressed idx ∧ ∀ c ∈ (ch.deliver packet).2, c.Addressed idx := by
  have hput : ∀ k p, Function.update ch.receivedPackets (ringSlot packet.sequence) (some packet) k =
      some p → p.channelId = idx := by
    intro k p hk
    by_cases he : k = ringSlot packet.sequence
    · rw [he, Function.update_self] at hk
      cases hk
      exact hp
    · rw [Function.update_of_ne he] at hk
      exact h.held k p hk
  have hone : ∀ c ∈ [PeerCall.addReliablePacket ch.deliveryMethod packet], c.Addressed idx :=
    fun c hc => List.mem_singleton.mp hc ▸ ⟨h.method, hp⟩
  rw [deliver]
  split
  · have hdrain := drainReceived_addressed windowSize h.held
      ((ch.remoteSequence + 1) % maxSequence)
    split
    · refine ⟨⟨h.id, h.method, h.acks, hdrain.1, h.pending⟩, fun c hc => ?_⟩
      obtain ⟨p, hm, rfl⟩ := List.mem_map.mp hc
      exact ⟨h.method, (List.mem_cons.mp hm).elim (fun he => he ▸ hp) (hdrain.2 p)⟩
    · exact ⟨⟨h.id, h.method, h.acks, h.held, h.pending⟩, hone⟩
  · split
    · exact ⟨⟨h.id, h.method, h.acks, hput, h.pending⟩, by simp⟩
    · exact ⟨⟨h.id, h.method, h.acks, h.held, h.pending⟩, hone⟩

private theorem acceptPacket_addressed (h : ch.Addressed idx) (hp : packet.channelId = idx) :
    (ch.acceptPacket packet).1.Addressed idx ∧
      ∀ c ∈ (ch.acceptPacket packet).2.1, c.Addressed idx := by
  have hqueue := @addToPeerChannelSendQueue_addressed idx ch.base
  rw [acceptPacket]
  dsimp only
  split
  · exact ⟨⟨h.id, h.method, h.acks, h.held, h.pending⟩, hqueue⟩
  · have hdeliver := deliver_addressed { ch with
      mustSendAcks := true
      base := ch.base.addToPeerChannelSendQueue.1
      outgoingAcks := setAckBit ch.outgoingAcks (packet.sequence % windowSize) }
      ⟨h.id, h.method, by rw [setAckBit_property, h.acks], h.held, h.pending⟩ hp
    exact ⟨hdeliver.1, fun c hc => (List.mem_append.mp hc).elim (hqueue c) (hdeliver.2 c)⟩

private theorem cleanOldData_property (fuel : ℕ) (acks : NetPacket)
    (windowStart newWindowStart : ℕ) :
    (cleanOldData fuel acks windowStart newWindowStart).1.property = acks.property := by
  induction fuel generalizing acks windowStart with
  | zero => rfl
  | succ fuel ih =>
    rw [cleanOldData]
    split
    · rfl
    · rw [ih, clearAckBit_property]

private theorem moveWindow_addressed (h : ch.Addressed idx) (relate : ℕ) :
    (ch.moveWindow relate).Addressed idx where
  id := h.id
  method := h.method
  acks := by rw [moveWindow, cleanOldData_property, NetPacket.property_setSequence, h.acks]
  held := h.held
  pending := h.pending

private theorem clear_addressed (pending : PendingPacket) :
    (∀ p, pending.clear.1.packet = some p → pending.packet = some p) ∧
      ∀ c ∈ pending.clear.2, c.Addressed idx := by
  rw [PendingPacket.clear]
  split
  · exact ⟨fun _ hp => hp, by simp⟩
  · exact ⟨(fun p hp => by cases hp), by simp [PeerCall.Addressed]⟩

/-- Putting a slot's own packet back, or nothing, keeps the ring of pending packets. -/
private theorem update_pending {ring : Ring PendingPacket}
    (h : ∀ k p, (ring k).packet = some p → p.channelId = idx) (slot : Fin windowSize)
    {pending : PendingPacket} (hp : ∀ p, pending.packet = some p → p.channelId = idx) :
    ∀ k p, (Function.update ring slot pending k).packet = some p → p.channelId = idx := by
  intro k p hk
  by_cases he : k = slot
  · rw [he, Function.update_self] at hk
    exact hp p hk
  · rw [Function.update_of_ne he] at hk
    exact h k p hk

private theorem ackPending_addressed (packet : NetPacket) (ackWindowStart fuel pendingSeq : ℕ)
    (h : ch.Addressed idx) :
    (ackPending packet ackWindowStart fuel pendingSeq ch).1.Addressed idx ∧
      ∀ c ∈ (ackPending packet ackWindowStart fuel pendingSeq ch).2, c.Addressed idx := by
  induction fuel generalizing pendingSeq ch with
  | zero => exact ⟨h, by simp [ackPending]⟩
  | succ fuel ih =>
    rw [ackPending]
    split
    · exact ⟨h, by simp⟩
    · split
      · exact ⟨h, by simp⟩
      · split
        · exact ih _ h
        · have hclear := @clear_addressed idx (ch.pendingPackets (ringSlot pendingSeq))
          have hreleased : (ch.releasePending pendingSeq).1.Addressed idx :=
            ⟨h.id, h.method, h.acks, h.held,
              update_pending h.pending _ (fun p hp => h.pending _ p (hclear.1 p hp))⟩
          have hrest := ih ((pendingSeq + 1) % maxSequence) hreleased
          exact ⟨hrest.1, fun c hc => (List.mem_append.mp hc).elim (hclear.2 c) (hrest.2 c)⟩

theorem processPacket_addressed (h : ch.Addressed idx) (hp : packet.channelId = idx) :
    (ch.processPacket packet).1.Addressed idx ∧
      ∀ c ∈ (ch.processPacket packet).2.1, c.Addressed idx := by
  rw [processPacket]
  split
  · rw [processAck]
    split
    · exact ⟨h, by simp⟩
    · dsimp only
      split
      · exact ⟨h, by simp⟩
      · split
        · exact ⟨h, by simp⟩
        · exact ackPending_addressed _ _ _ _ h
  · dsimp only
    split
    · exact ⟨h, by simp⟩
    · split
      · exact ⟨h, by simp⟩
      · split
        · exact ⟨h, by simp⟩
        · split
          · exact ⟨h, by simp⟩
          · split
            · exact acceptPacket_addressed (moveWindow_addressed h _) hp
            · exact acceptPacket_addressed h hp

private theorem fillWindow_addressed (ch : NetReliableChannel) (queue : List NetPacket)
    (h : ch.Addressed idx) : (fillWindow queue ch).Addressed idx := by
  induction queue generalizing ch with
  | nil => exact ⟨h.id, h.method, h.acks, h.held, h.pending⟩
  | cons packet queue ih =>
    rw [fillWindow]
    split
    · exact ⟨h.id, h.method, h.acks, h.held, h.pending⟩
    · refine ih _ ⟨h.id, h.method, h.acks, h.held, update_pending h.pending _ (fun p hp => ?_)⟩
      cases hp
      rw [NetPacket.channelId_setChannelId, h.id]

private theorem sendPending_addressed (ctx : ChannelContext) (localSequence fuel pendingSeq : ℕ)
    {ring : Ring PendingPacket} (h : ∀ k p, (ring k).packet = some p → p.channelId = idx) :
    (∀ k p, ((sendPending ctx localSequence fuel pendingSeq ring).1 k).packet = some p →
        p.channelId = idx) ∧
      ∀ c ∈ (sendPending ctx localSequence fuel pendingSeq ring).2.1, c.Addressed idx := by
  induction fuel generalizing pendingSeq ring with
  | zero => exact ⟨h, by simp [sendPending]⟩
  | succ fuel ih =>
    have htry : (∀ p, ((ring (ringSlot pendingSeq)).trySend ctx).1.packet = some p →
        p.channelId = idx) ∧
        ∀ c ∈ ((ring (ringSlot pendingSeq)).trySend ctx).2.1, c.Addressed idx := by
      have hslot := h (ringSlot pendingSeq)
      rw [PendingPacket.trySend]
      split
      · exact ⟨hslot, by simp⟩
      · next p hp =>
        split
        · exact ⟨hslot, by simp⟩
        · have hid : (p.setConnectionNumber ctx.connectNumber).channelId = idx := by
            rw [NetPacket.channelId_setConnectionNumber, hslot p hp]
          exact ⟨fun q hq => Option.some.inj hq ▸ hid,
            fun c hc => List.mem_singleton.mp hc ▸ .inr hid⟩
    rw [sendPending]
    split
    · exact ⟨h, by simp⟩
    · have hrest := ih ((pendingSeq + 1) % maxSequence) (update_pending h (ringSlot pendingSeq) htry.1)
      exact ⟨hrest.1, fun c hc => (List.mem_append.mp hc).elim (htry.2 c) (hrest.2 c)⟩

theorem sendAndCheckQueue_addressed (h : ch.Addressed idx) (ctx : ChannelContext) :
    (ch.sendAndCheckQueue ctx).1.Addressed idx ∧
      ∀ c ∈ (ch.sendAndCheckQueue ctx).2.1, c.Addressed idx := by
  have hacks : (ch.sendAcks ctx).1.Addressed idx ∧ ∀ c ∈ (ch.sendAcks ctx).2, c.Addressed idx := by
    have hack : (ch.outgoingAcks.setConnectionNumber ctx.connectNumber).property = .ack := by
      rw [NetPacket.property_setConnectionNumber, h.acks]
    rw [sendAcks]
    split
    · exact ⟨⟨h.id, h.method, hack, h.held, h.pending⟩,
        fun c hc => List.mem_singleton.mp hc ▸ .inl hack⟩
    · exact ⟨h, by simp⟩
  have hfill := fillWindow_addressed _ (ch.sendAcks ctx).1.base.outgoingQueue hacks.1
  have hsent := sendPending_addressed ctx
    (fillWindow (ch.sendAcks ctx).1.base.outgoingQueue (ch.sendAcks ctx).1).localSequence maxSequence
    (fillWindow (ch.sendAcks ctx).1.base.outgoingQueue (ch.sendAcks ctx).1).localWindowStart
    hfill.pending
  exact ⟨⟨hfill.id, hfill.method, hfill.acks, hfill.held, hsent.1⟩,
    fun c hc => (List.mem_append.mp hc).elim (hacks.2 c) (hsent.2 c)⟩

end NetReliableChannel

namespace NetSequencedChannel

structure Addressed (idx : UInt8) (ch : NetSequencedChannel) : Prop where
  id : ch.id = idx
  method : ch.deliveryMethod.code = idx.toNat % channelTypeCount
  /-- The acknowledgement is given no channel id. -/
  ack : ∀ p, ch.ackPacket = some p → p.property = .ack ∧ p.channelId = 0 ∧
    channeledHeaderSize ≤ p.size
  last : ∀ p, ch.lastPacket = some p → p.channelId = idx

variable {ch : NetSequencedChannel}

theorem Addressed.new {reliable : Bool}
    (h : idx.toNat % channelTypeCount = if reliable then 3 else 1) :
    (new reliable idx).Addressed idx where
  id := rfl
  method := by
    rw [h]
    cases reliable <;> rfl
  ack := by
    intro p hp
    cases reliable with
    | false => cases hp
    | true => exact Option.some.inj hp ▸ ⟨by decide, by decide, by decide⟩
  last := nofun

theorem processPacket_addressed (h : ch.Addressed idx) (hp : packet.channelId = idx) :
    (ch.processPacket packet).1.Addressed idx ∧
      ∀ c ∈ (ch.processPacket packet).2.1, c.Addressed idx := by
  have hdata : (ch.processData packet).1.Addressed idx ∧
      ∀ c ∈ (ch.processData packet).2.1, c.Addressed idx := by
    rw [processData]
    split
    · refine ⟨⟨h.id, h.method, h.ack, h.last⟩, fun c hc => ?_⟩
      rw [List.mem_singleton.mp hc, hp]
      exact ⟨h.method, rfl⟩
    · exact ⟨h, by simp⟩
  rw [processPacket]
  split
  · exact ⟨h, by simp⟩
  · split
    · rw [processAck]
      split
      · exact ⟨h, by simp⟩
      · split
        · exact ⟨⟨h.id, h.method, h.ack, (fun p hp => by cases hp)⟩, by simp [PeerCall.Addressed]⟩
        · exact ⟨h, by simp⟩
    · dsimp only
      split
      · refine ⟨⟨hdata.1.id, hdata.1.method, hdata.1.ack, hdata.1.last⟩, fun c hc => ?_⟩
        exact (List.mem_append.mp hc).elim (hdata.2 c) (addToPeerChannelSendQueue_addressed _ c)
      · exact hdata

private theorem sendQueued_addressed (ctx : ChannelContext) (queue : List NetPacket)
    (h : ch.Addressed idx) : (sendQueued ctx queue ch).1.Addressed idx ∧
      ∀ c ∈ (sendQueued ctx queue ch).2, c.Addressed idx := by
  induction queue generalizing ch with
  | nil => exact ⟨⟨h.id, h.method, h.ack, h.last⟩, by simp [sendQueued]⟩
  | cons packet queue ih =>
    have hid : (((packet.setSequence ((ch.localSequence + 1) % maxSequence)).setChannelId
        ch.id).setConnectionNumber ctx.connectNumber).channelId = idx := by
      rw [NetPacket.channelId_setConnectionNumber, NetPacket.channelId_setChannelId, h.id]
    rw [sendQueued]
    split
    · have hrest := @ih { ch with
        localSequence := (ch.localSequence + 1) % maxSequence
        lastPacketSendTime := ctx.currentTime
        lastPacket := some _ } ⟨h.id, h.method, h.ack, fun q hq => Option.some.inj hq ▸ hid⟩
      exact ⟨hrest.1, List.forall_mem_cons.mpr ⟨.inr hid, hrest.2⟩⟩
    · have hrest := @ih { ch with localSequence := (ch.localSequence + 1) % maxSequence }
        ⟨h.id, h.method, h.ack, h.last⟩
      exact ⟨hrest.1, List.forall_mem_cons.mpr ⟨.inr hid, List.forall_mem_cons.mpr
        ⟨trivial, hrest.2⟩⟩⟩

private theorem resendLast_addressed (h : ch.Addressed idx) (ctx : ChannelContext) :
    (ch.resendLast ctx).1.Addressed idx ∧ ∀ c ∈ (ch.resendLast ctx).2, c.Addressed idx := by
  rw [resendLast]
  split
  · split
    · exact ⟨h, by simp⟩
    · next p hp =>
      have hid : (p.setConnectionNumber ctx.connectNumber).channelId = idx := by
        rw [NetPacket.channelId_setConnectionNumber, h.last p hp]
      exact ⟨⟨h.id, h.method, h.ack, fun q hq => Option.some.inj hq ▸ hid⟩,
        fun c hc => List.mem_singleton.mp hc ▸ .inr hid⟩
  · exact ⟨h, by simp⟩

private theorem sendAck_addressed (h : ch.Addressed idx) (ctx : ChannelContext) :
    (ch.sendAck ctx).1.Addressed idx ∧ ∀ c ∈ (ch.sendAck ctx).2, c.Addressed idx := by
  rw [sendAck]
  split
  · exact ⟨h, by simp⟩
  · next ack ha =>
    split
    · obtain ⟨hproperty, hid, hsize⟩ := h.ack ack ha
      have hack : ((ack.setSequence ch.remoteSequence).setConnectionNumber
          ctx.connectNumber).property = .ack := by
        rw [NetPacket.property_setConnectionNumber, NetPacket.property_setSequence, hproperty]
      have hid : ((ack.setSequence ch.remoteSequence).setConnectionNumber
          ctx.connectNumber).channelId = 0 := by
        rw [NetPacket.channelId_setConnectionNumber, NetPacket.channelId_setSequence, hid]
      exact ⟨⟨h.id, h.method, fun q hq => Option.some.inj hq ▸ ⟨hack, hid, hsize⟩, h.last⟩,
        fun c hc => List.mem_singleton.mp hc ▸ .inl hack⟩
    · exact ⟨h, by simp⟩

theorem sendAndCheckQueue_addressed (h : ch.Addressed idx) (ctx : ChannelContext) :
    (ch.sendAndCheckQueue ctx).1.Addressed idx ∧
      ∀ c ∈ (ch.sendAndCheckQueue ctx).2.1, c.Addressed idx := by
  have hnext : (ch.sendNextPackets ctx).1.Addressed idx ∧
      ∀ c ∈ (ch.sendNextPackets ctx).2.1, c.Addressed idx := by
    rw [sendNextPackets]
    split
    · have hlast := resendLast_addressed h ctx
      have hack := sendAck_addressed hlast.1 ctx
      exact ⟨hack.1, fun c hc => (List.mem_append.mp hc).elim (hlast.2 c) (hack.2 c)⟩
    · have hqueue := sendQueued_addressed ctx ch.base.outgoingQueue h
      have hack := sendAck_addressed hqueue.1 ctx
      exact ⟨hack.1, fun c hc => (List.mem_append.mp hc).elim (hqueue.2 c) (hack.2 c)⟩
  exact ⟨⟨hnext.1.id, hnext.1.method, hnext.1.ack, hnext.1.last⟩, hnext.2⟩

end NetSequencedChannel

end LiteNet.Channels
