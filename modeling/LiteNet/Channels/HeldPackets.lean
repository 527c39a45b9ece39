import LiteNet.Channels.UserPackets

/-! # The packets a channel holds

Only packets of a channel are ever held, and what a channel hands on is the packet it
was given or one that it held. So a bound on the sizes of its packets is one on all it
hands on.
-/

namespace LiteNet.Channels
open Library Wire

/-- The packet that the call hands on has the header that is skipped. -/
def PeerCall.Sized : PeerCall → Prop
  | addReliablePacket _ packet => channeledHeaderSize ≤ packet.size
  | createReceiveEvent packet _ _ headerSize => headerSize ≤ packet.size
  | _ => True

variable {packet : NetPacket}

theorem addToPeerChannelSendQueue_sized (b : NetBaseChannel) :
    ∀ c ∈ b.addToPeerChannelSendQueue.2, c.Sized := by
  rw [NetBaseChannel.addToPeerChannelSendQueue]
  split <;> simp [PeerCall.Sized]

theorem addToQueue_sized (b : NetBaseChannel) (packet : NetPacket) :
    ∀ c ∈ (b.addToQueue packet).2, c.Sized := by
  rw [NetBaseChannel.addToQueue]
  split
  · simp [PeerCall.Sized]
  · exact addToPeerChannelSendQueue_sized _

namespace NetReliableChannel

/-- Every packet that waits for its turn has a channeled header. -/
def Sized (ch : NetReliableChannel) : Prop :=
  ∀ k p, ch.receivedPackets k = some p → channeledHeaderSize ≤ p.size

variable {ch : NetReliableChannel}

theorem Sized.new (ordered : Bool) (id : UInt8) : (new ordered id).Sized := nofun

private theorem drainReceived_sized (fuel : ℕ) {ring : Ring (Option NetPacket)}
    (h : ∀ k p, ring k = some p → channeledHeaderSize ≤ p.size) (sequence : ℕ) :
    (∀ k p, (drain (fun held => held) none fuel ring sequence).1 k = some p →
        channeledHeaderSize ≤ p.size) ∧
      ∀ p ∈ (drain (fun held => held) none fuel ring sequence).2.2,
        channeledHeaderSize ≤ p.size := by
  induction fuel generalizing ring sequence with
  | zero => exact ⟨h, by simp [drain]⟩
  | succ fuel ih =>
    rw [drain]
    split
    · exact ⟨h, by simp⟩
    · next held hk =>
      have hrest := @ih (Function.update ring (ringSlot sequence) none) (by
        intro k p hp
        by_cases he : k = ringSlot sequence
        · simp [he] at hp
        · rw [Function.update_of_ne he] at hp
          exact h k p hp) ((sequence + 1) % maxSequence)
      exact ⟨hrest.1, List.forall_mem_cons.mpr ⟨h _ _ hk, hrest.2⟩⟩

private theorem deliver_sized (h : ch.Sized) (hp : channeledHeaderSize ≤ packet.size) :
    (ch.deliver packet).1.Sized ∧ ∀ c ∈ (ch.deliver packet).2, c.Sized := by
  rw [deliver]
  split
  · have hdrain := drainReceived_sized windowSize h ((ch.remoteSequence + 1) % maxSequence)
    split
    · refine ⟨hdrain.1, ?_⟩
      intro c hc
      obtain ⟨p, hm, rfl⟩ := List.mem_map.mp hc
      rcases List.mem_cons.mp hm with rfl | hm
      · exact hp
      · exact hdrain.2 p hm
    · exact ⟨h, by simp [PeerCall.Sized, hp]⟩
  · split
    · refine ⟨?_, by simp⟩
      intro k p hk
      by_cases he : k = ringSlot packet.sequence
      · rw [he] at hk
        simp only [Function.update_self, Option.some.injEq] at hk
        rwa [← hk]
      · simp only [Function.update_of_ne he] at hk
        exact h k p hk
    · exact ⟨h, by simp [PeerCall.Sized, hp]⟩

private theorem acceptPacket_sized (h : ch.Sized) (hp : channeledHeaderSize ≤ packet.size) :
    (ch.acceptPacket packet).1.Sized ∧ ∀ c ∈ (ch.acceptPacket packet).2.1, c.Sized := by
  have hqueue := addToPeerChannelSendQueue_sized ch.base
  rw [acceptPacket]
  dsimp only
  split
  · exact ⟨h, hqueue⟩
  · have hdeliver := @deliver_sized packet { ch with
      mustSendAcks := true
      base := ch.base.addToPeerChannelSendQueue.1
      outgoingAcks := setAckBit ch.outgoingAcks (packet.sequence % windowSize) } h hp
    refine ⟨hdeliver.1, ?_⟩
    intro c hc
    exact (List.mem_append.mp hc).elim (hqueue c) (hdeliver.2 c)

private theorem ackPending_sized (packet : NetPacket) (ackWindowStart fuel pendingSeq : ℕ)
    (h : ch.Sized) :
    (ackPending packet ackWindowStart fuel pendingSeq ch).1.Sized ∧
      ∀ c ∈ (ackPending packet ackWindowStart fuel pendingSeq ch).2, c.Sized := by
  induction fuel generalizing pendingSeq ch with
  | zero => exact ⟨h, by simp [ackPending]⟩
  | succ fuel ih =>
    rw [ackPending]
    split
    · exact ⟨h, by simp⟩
    · split
      · exact ⟨h, by simp⟩
      · split
        · exact ih _ h
        · have hclear : ∀ c ∈ (ch.releasePending pendingSeq).2, c.Sized := by
            rw [releasePending, PendingPacket.clear]
            dsimp only
            split <;> simp [PeerCall.Sized]
          have hrest := @ih (ch.releasePending pendingSeq).1 ((pendingSeq + 1) % maxSequence) h
          refine ⟨hrest.1, ?_⟩
          intro c hc
          exact (List.mem_append.mp hc).elim (hclear c) (hrest.2 c)

theorem processPacket_sized (h : ch.Sized)
    (hp : packet.property = .ack ∨ channeledHeaderSize ≤ packet.size) :
    (ch.processPacket packet).1.Sized ∧ ∀ c ∈ (ch.processPacket packet).2.1, c.Sized := by
  rw [processPacket]
  split
  · rw [processAck]
    split
    · exact ⟨h, by simp⟩
    · dsimp only
      split
      · exact ⟨h, by simp⟩
      · split
        · exact ⟨h, by simp⟩
        · exact ackPending_sized _ _ _ _ h
  · next hack =>
    have hsize := hp.resolve_left hack
    dsimp only
    split
    · exact ⟨h, by simp⟩
    · split
      · exact ⟨h, by simp⟩
      · split
        · exact ⟨h, by simp⟩
        · split
          · exact ⟨h, by simp⟩
          · split
            · exact acceptPacket_sized h hsize
            · exact acceptPacket_sized h hsize

private theorem fillWindow_sized (queue : List NetPacket) (h : ch.Sized) :
    (fillWindow queue ch).Sized := by
  induction queue generalizing ch with
  | nil => exact h
  | cons packet queue ih =>
    rw [fillWindow]
    split
    · exact h
    · exact ih h

private theorem trySend_sized (pending : PendingPacket) (ctx : ChannelContext) :
    ∀ c ∈ (pending.trySend ctx).2.1, c.Sized := by
  rw [PendingPacket.trySend]
  split
  · simp
  · split <;> simp [PeerCall.Sized]

private theorem sendPending_sized (ctx : ChannelContext) (localSequence fuel pendingSeq : ℕ)
    (ring : Ring PendingPacket) :
    ∀ c ∈ (sendPending ctx localSequence fuel pendingSeq ring).2.1, c.Sized := by
  induction fuel generalizing pendingSeq ring with
  | zero => simp [sendPending]
  | succ fuel ih =>
    rw [sendPending]
    split
    · simp
    · intro c hc
      exact (List.mem_append.mp hc).elim (trySend_sized _ ctx c) (ih _ _ c)

theorem sendAndCheckQueue_sized (h : ch.Sized) (ctx : ChannelContext) :
    (ch.sendAndCheckQueue ctx).1.Sized ∧ ∀ c ∈ (ch.sendAndCheckQueue ctx).2.1, c.Sized := by
  have hacks : (ch.sendAcks ctx).1.Sized ∧ ∀ c ∈ (ch.sendAcks ctx).2, c.Sized := by
    rw [sendAcks]
    split
    · exact ⟨h, by simp [PeerCall.Sized]⟩
    · exact ⟨h, by simp⟩
  refine ⟨fillWindow_sized (ch.sendAcks ctx).1.base.outgoingQueue hacks.1, ?_⟩
  intro c hc
  exact (List.mem_append.mp hc).elim (hacks.2 c) (sendPending_sized ctx _ _ _ _ c)

end NetReliableChannel

namespace NetSequencedChannel

variable {ch : NetSequencedChannel}

theorem processPacket_sized (hp : packet.property = .ack ∨ channeledHeaderSize ≤ packet.size) :
    ∀ c ∈ (ch.processPacket packet).2.1, c.Sized := by
  rw [processPacket]
  split
  · simp
  · split
    · rw [processAck]
      split
      · simp
      · split <;> simp [PeerCall.Sized]
    · next hack =>
      have hdata : ∀ c ∈ (ch.processData packet).2.1, c.Sized := by
        rw [processData]
        split
        · simpa [PeerCall.Sized] using hp.resolve_left hack
        · simp
      dsimp only
      split
      · intro c hc
        exact (List.mem_append.mp hc).elim (hdata c) (addToPeerChannelSendQueue_sized _ c)
      · exact hdata

private theorem sendQueued_sized (ctx : ChannelContext) (queue : List NetPacket)
    (ch : NetSequencedChannel) : ∀ c ∈ (sendQueued ctx queue ch).2, c.Sized := by
  induction queue generalizing ch with
  | nil => simp [sendQueued]
  | cons packet queue ih =>
    rw [sendQueued]
    dsimp only
    split
    · exact List.forall_mem_cons.mpr ⟨trivial, ih _⟩
    · exact List.forall_mem_cons.mpr ⟨trivial, List.forall_mem_cons.mpr ⟨trivial, ih _⟩⟩

theorem sendAndCheckQueue_sized (ch : NetSequencedChannel) (ctx : ChannelContext) :
    ∀ c ∈ (ch.sendAndCheckQueue ctx).2.1, c.Sized := by
  have hresent : ∀ c ∈ (ch.resendLast ctx).2, c.Sized := by
    rw [resendLast]
    dsimp only
    split
    · split <;> simp [PeerCall.Sized]
    · simp
  have hack (ch : NetSequencedChannel) : ∀ c ∈ (ch.sendAck ctx).2, c.Sized := by
    rw [sendAck]
    split
    · simp
    · split <;> simp [PeerCall.Sized]
  rw [sendAndCheckQueue, sendNextPackets]
  dsimp only
  intro c hc
  refine (List.mem_append.mp hc).elim (fun hc => ?_) (hack _ c)
  split at hc
  · exact hresent c hc
  · exact sendQueued_sized ctx _ ch c hc

end NetSequencedChannel

end LiteNet.Channels
