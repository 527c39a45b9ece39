import LiteNet.Channels.ReliableSender

/-! # A reliable channel in its peer's send queue

The channel keeps a flag that says whether it stands in the queue, and each
iteration of the channel loop of `net_peer::update` takes a channel out, lets it
send, and puts it back when it has more to send. All other channels of the peer
are the environment.
-/

namespace LiteNet.Channels
open Library Wire

structure SendQueue where
  channel : NetReliableChannel
  /-- `m_channel_send_queue`, each channel standing for itself by its id -/
  queue : List UInt8

/-- What the calls of a channel push onto the queue. -/
def pushed (id : UInt8) (calls : List PeerCall) : List UInt8 :=
  calls.filterMap fun
    | .addToReliableChannelSendQueue => some id
    | _ => none

namespace SendQueue

def apply (s : SendQueue) (ch : NetReliableChannel) (calls : List PeerCall) : SendQueue where
  channel := ch
  queue := s.queue ++ pushed ch.id calls

def addToQueue (s : SendQueue) (packet : NetPacket) : SendQueue :=
  let called := s.channel.addToQueue packet
  s.apply called.1 called.2

def processPacket (s : SendQueue) (packet : NetPacket) : SendQueue :=
  let called := s.channel.processPacket packet
  s.apply called.1 called.2.1

/-- The channel is at the head: dequeue, `send_and_check_queue`, and push it again if it says so. -/
def update (s : SendQueue) (ctx : ChannelContext) : SendQueue :=
  let sent := s.channel.sendAndCheckQueue ctx
  let s := { s with queue := s.queue.tail }.apply sent.1 sent.2.1
  { s with queue := s.queue ++ if sent.2.2 then [s.channel.id] else [] }

/-- One atomic step of the channel, of the peer, or of another channel. An iteration of the
update loop that takes this channel is restricted to those that meet `P`. -/
inductive Step (P : NetReliableChannel → ChannelContext → Prop) : SendQueue → SendQueue → Prop
  | addToQueue (s : SendQueue) (packet : NetPacket) : Step P s (s.addToQueue packet)
  | processPacket (s : SendQueue) (packet : NetPacket) : Step P s (s.processPacket packet)
  | update (s : SendQueue) (ctx : ChannelContext) (h : s.queue.head? = some s.channel.id)
      (hp : P s.channel ctx) : Step P s (s.update ctx)
  | push (s : SendQueue) (other : UInt8) (h : other ≠ s.channel.id) :
      Step P s { s with queue := s.queue ++ [other] }
  | updateOther (s : SendQueue) (other : UInt8) (h : other ≠ s.channel.id)
      (hq : s.queue.head? = some other) (again : Bool) :
      Step P s { s with queue := s.queue.tail ++ if again then [other] else [] }

def Started (ordered : Bool) (id : UInt8) (s : SendQueue) : Prop :=
  s.channel = .new ordered id ∧ id ∉ s.queue

/-- The channel holds an unacknowledged packet, a queued one, or acknowledgements to send. -/
def HasWork (ch : NetReliableChannel) : Prop :=
  (∃ k, (ch.pendingPackets k).packet ≠ none) ∨ ch.base.outgoingQueue ≠ [] ∨ ch.mustSendAcks = true

def Scheduled (s : SendQueue) : Prop :=
  HasWork s.channel → s.channel.base.isAddedToPeerChannelSendQueue = 1 ∧
    s.queue.count s.channel.id = 1

end SendQueue

/-- `try_send` would send the slot's packet. -/
def PendingPacket.due (pending : PendingPacket) (ctx : ChannelContext) : Bool :=
  pending.packet.isSome && !pending.waiting ctx

theorem PendingPacket.trySend_sent (pending : PendingPacket) (ctx : ChannelContext) :
    (pending.trySend ctx).2.2 = pending.due ctx := by
  rw [trySend, due]
  cases hp : pending.packet with
  | none => rfl
  | some packet => cases hw : pending.waiting ctx <;> simp

theorem PendingPacket.trySend_packet (pending : PendingPacket) (ctx : ChannelContext) :
    (pending.trySend ctx).1.packet = none ↔ pending.packet = none := by
  rw [trySend]
  cases hp : pending.packet with
  | none => simp [hp]
  | some packet => cases hw : pending.waiting ctx <;> simp [hp]

theorem PendingPacket.trySend_calls (id : UInt8) (pending : PendingPacket) (ctx : ChannelContext) :
    pushed id (pending.trySend ctx).2.1 = [] := by
  rw [trySend]
  cases hp : pending.packet with
  | none => rfl
  | some packet => cases hw : pending.waiting ctx <;> rfl

namespace NetReliableChannel

/-- Only slots of the numbers from `base` to `next` hold packets. -/
structure Window (ch : NetReliableChannel) (base next : ℕ) : Prop where
  localSequence : ch.localSequence = next % maxSequence
  localWindowStart : ch.localWindowStart = base % maxSequence
  base_le : base ≤ next
  next_le : next ≤ base + windowSize
  empty : Holds ch.pendingPackets base (fun i pending => next ≤ i → pending.packet = none)

variable {ch : NetReliableChannel} {base next : ℕ}

theorem Window.new (ordered : Bool) (id : UInt8) :
    (NetReliableChannel.new ordered id).Window 0 0 :=
  ⟨rfl, rfl, le_rfl, Nat.zero_le _, fun _ _ _ _ => rfl⟩

theorem Window.congr {ch' : NetReliableChannel} (h : ch.Window base next)
    (hs : ch'.localSequence = ch.localSequence) (hw : ch'.localWindowStart = ch.localWindowStart)
    (hp : ch'.pendingPackets = ch.pendingPackets) : ch'.Window base next :=
  ⟨hs.trans h.localSequence, hw.trans h.localWindowStart, h.base_le, h.next_le, hp ▸ h.empty⟩

/-- A slot that holds a packet is the slot of a number of the window. -/
theorem Window.index (h : ch.Window base next) {k : Fin windowSize}
    (hk : (ch.pendingPackets k).packet ≠ none) : ∃ i, base ≤ i ∧ i < next ∧ ringSlot i = k := by
  obtain ⟨i, hi, hi', rfl⟩ := exists_slot_eq base k
  refine ⟨i, hi, ?_, rfl⟩
  by_contra hlt
  exact hk (h.empty i hi hi' (by omega))

theorem Window.release (h : ch.Window base next) {j : ℕ} (hb : base ≤ j) (hj : j < next) :
    ∃ base', base ≤ base' ∧ base' ≤ j + 1 ∧
      (ch.releasePending (j % maxSequence)).1.Window base' next := by
  have hslot : ringSlot (j % maxSequence) = ringSlot j := slot_mod (by decide) j
  have hnext := h.next_le
  have hclear : (ch.pendingPackets (ringSlot j)).clear.1.packet = none := by
    rw [PendingPacket.clear]
    cases hp : (ch.pendingPackets (ringSlot j)).packet with
    | none => exact hp
    | some q => rfl
  have hring := h.empty.update (v := (ch.pendingPackets (ringSlot j)).clear.1) hb (by omega)
    (fun _ => hclear) (fun _ _ _ hv => hv)
  rw [releasePending, hslot]
  by_cases he : j = base
  · subst he
    refine ⟨j + 1, by omega, le_rfl, h.localSequence, ?_, hj, by omega, ?_⟩
    · rw [if_pos h.localWindowStart.symm, h.localWindowStart, wrapped_succ]
    · refine hring.slide fun _ => ?_
      rw [Function.update_self]
      exact hclear
  · have hne : j % maxSequence ≠ ch.localWindowStart := fun hm => by
      rw [h.localWindowStart] at hm
      have hwin : windowSize < maxSequence := by decide
      exact he (wrapped_injOn hb (by omega) hm.symm).symm
    refine ⟨base, le_rfl, by omega, h.localSequence, ?_, h.base_le, hnext, hring⟩
    rw [if_neg hne, h.localWindowStart]

/-- Any acknowledgement at all leaves a window of packets. -/
theorem Window.ackPending (h : ch.Window base next) (packet : NetPacket)
    (ackWindowStart fuel : ℕ) {j : ℕ} (hb : base ≤ j) (hj : j ≤ next) :
    ∃ base', (NetReliableChannel.ackPending packet ackWindowStart fuel
      (j % maxSequence) ch).1.Window base' next := by
  induction fuel generalizing j ch base with
  | zero => exact ⟨base, h⟩
  | succ fuel ih =>
    rw [NetReliableChannel.ackPending]
    split_ifs with hend hfar hbit
    · exact ⟨base, h⟩
    · exact ⟨base, h⟩
    · have hlt : j < next := lt_of_le_of_ne hj fun he => hend (by rw [he, h.localSequence])
      rw [wrapped_succ]
      exact ih h (by omega) hlt
    · have hlt : j < next := lt_of_le_of_ne hj fun he => hend (by rw [he, h.localSequence])
      obtain ⟨base', -, hle, hrel⟩ := h.release hb hlt
      rw [wrapped_succ]
      exact ih hrel hle hlt

theorem Window.processAck (h : ch.Window base next) (packet : NetPacket) :
    ∃ base', (ch.processAck packet).1.Window base' next := by
  rw [NetReliableChannel.processAck]
  simp only
  split_ifs
  · exact ⟨base, h⟩
  · exact ⟨base, h⟩
  · exact ⟨base, h⟩
  · rw [h.localWindowStart]
    exact h.ackPending _ _ _ le_rfl h.base_le

private theorem releasePending_pending (id : UInt8) (ch : NetReliableChannel) (pendingSeq : ℕ) :
    (∀ k, (ch.pendingPackets k).packet = none →
      ((ch.releasePending pendingSeq).1.pendingPackets k).packet = none) ∧
      pushed id (ch.releasePending pendingSeq).2 = [] := by
  constructor
  · intro k hk
    by_cases he : k = ringSlot pendingSeq
    · subst he
      simp [releasePending, PendingPacket.clear, hk]
    · simpa [releasePending, Function.update_of_ne he] using hk
  · rw [releasePending, PendingPacket.clear]
    cases hp : (ch.pendingPackets (ringSlot pendingSeq)).packet with
    | none => rfl
    | some packet => rfl

/-- Acknowledgements only take packets out, and call nothing but their release. -/
private theorem ackPending_pending (packet : NetPacket) (id : UInt8)
    (ackWindowStart fuel pendingSeq : ℕ) (ch : NetReliableChannel) :
    (∀ k, (ch.pendingPackets k).packet = none →
      ((NetReliableChannel.ackPending packet ackWindowStart fuel pendingSeq ch).1.pendingPackets
        k).packet = none) ∧
      pushed id (NetReliableChannel.ackPending packet ackWindowStart fuel pendingSeq ch).2 = [] := by
  induction fuel generalizing pendingSeq ch with
  | zero => exact ⟨fun _ h => h, rfl⟩
  | succ fuel ih =>
    rw [NetReliableChannel.ackPending]
    split_ifs
    · exact ⟨fun _ h => h, rfl⟩
    · exact ⟨fun _ h => h, rfl⟩
    · exact ih _ ch
    · obtain ⟨hnone, hcalls⟩ := ih ((pendingSeq + 1) % maxSequence) (ch.releasePending pendingSeq).1
      obtain ⟨hrelease, hpush⟩ := releasePending_pending id ch pendingSeq
      refine ⟨fun k hk => hnone k (hrelease k hk), ?_⟩
      rw [pushed, List.filterMap_append, ← pushed, ← pushed, hcalls, hpush]
      rfl

theorem processAck_pending (packet : NetPacket) (id : UInt8) (ch : NetReliableChannel) :
    (∀ k, (ch.pendingPackets k).packet = none →
      ((ch.processAck packet).1.pendingPackets k).packet = none) ∧
      pushed id (ch.processAck packet).2 = [] := by
  rw [NetReliableChannel.processAck]
  simp only
  split_ifs
  · exact ⟨fun _ h => h, rfl⟩
  · exact ⟨fun _ h => h, rfl⟩
  · exact ⟨fun _ h => h, rfl⟩
  · exact ackPending_pending _ _ _ _ _ _

private theorem admitPacket_slot (ch : NetReliableChannel) (packet : NetPacket) :
    (ch.admitPacket packet).pendingPackets (ringSlot ch.localSequence) =
      (ch.pendingPackets (ringSlot ch.localSequence)).init
        ((packet.setSequence ch.localSequence).setChannelId ch.id) :=
  Function.update_self _ _ _

/-- What admission leaves in a slot: what was there, or a packet that was never sent. -/
theorem admit_slot (queue : List NetPacket) (ch : NetReliableChannel) (k : Fin windowSize) :
    (fillWindow queue ch).pendingPackets k = ch.pendingPackets k ∨
      ∃ packet, ((fillWindow queue ch).pendingPackets k).packet = some packet ∧
        ((fillWindow queue ch).pendingPackets k).isSent = false := by
  induction queue generalizing ch with
  | nil => exact .inl rfl
  | cons packet queue ih =>
    rw [fillWindow]
    split
    · exact .inl rfl
    · rcases ih (ch.admitPacket packet) with heq | hnew
      · rw [heq]
        by_cases hk : k = ringSlot ch.localSequence
        · subst hk
          right
          rw [admitPacket_slot]
          exact ⟨_, rfl, rfl⟩
        · left
          exact Function.update_of_ne hk _ _
      · exact .inr hnew

/-- Admission keeps the window, and takes a packet from a queue unless the window is full. -/
theorem Window.fillWindow (h : ch.Window base next) (queue : List NetPacket) :
    ∃ next', (NetReliableChannel.fillWindow queue ch).Window base next' ∧
      (queue ≠ [] → (NetReliableChannel.fillWindow queue ch).base.outgoingQueue ≠ [] ∨
        ∃ k packet, ((NetReliableChannel.fillWindow queue ch).pendingPackets k).packet = some packet ∧
          ((NetReliableChannel.fillWindow queue ch).pendingPackets k).isSent = false) := by
  induction queue generalizing ch next with
  | nil =>
    exact ⟨next, h.congr rfl rfl rfl, fun hne => absurd rfl hne⟩
  | cons packet queue ih =>
    have hnext := h.next_le
    have hbase := h.base_le
    have hhalf := windowSize_lt_halfMaxSequence
    have hrelate : relativeSequenceNumber ch.localSequence ch.localWindowStart =
        (next : ℤ) - base := by
      rw [h.localSequence, h.localWindowStart, relativeSequenceNumber_wrapped (by omega) (by omega)]
    have hslot : ringSlot ch.localSequence = ringSlot next := by
      rw [h.localSequence]
      exact slot_mod (by decide) _
    rw [NetReliableChannel.fillWindow, hrelate]
    split
    · exact ⟨next, h.congr rfl rfl rfl, fun _ => .inl (by simp)⟩
    · next hroom =>
      have hwindow : (ch.admitPacket packet).Window base (next + 1) := by
        refine ⟨?_, h.localWindowStart, by omega, by omega, ?_⟩
        · rw [admitPacket, h.localSequence, wrapped_succ]
        · rw [admitPacket, hslot]
          exact h.empty.update hbase (by omega) (fun hlt => by omega)
            (fun j v _ hv hlt => hv (by omega))
      obtain ⟨next', hw, -⟩ := ih hwindow
      refine ⟨next', hw, fun _ => .inr ⟨ringSlot ch.localSequence, ?_⟩⟩
      rcases admit_slot queue (ch.admitPacket packet) (ringSlot ch.localSequence) with heq | hnew
      · rw [heq, admitPacket_slot]
        exact ⟨_, rfl, rfl⟩
      · exact hnew

/-- The sending loop says whether a slot of the window was due. -/
theorem sendPending_sent (ctx : ChannelContext) (fuel : ℕ) {j : ℕ} (ring : Ring PendingPacket)
    (hj : j ≤ next) (hf : next ≤ j + fuel) (hw : next ≤ j + windowSize)
    {r : Ring PendingPacket × List PeerCall × Bool}
    (hr : sendPending ctx (next % maxSequence) fuel (j % maxSequence) ring = r) :
    (r.2.2 = true ↔ ∃ i, j ≤ i ∧ i < next ∧ (ring (ringSlot i)).due ctx = true) ∧
      (∀ k, (r.1 k).packet = none ↔ (ring k).packet = none) ∧ ∀ id, pushed id r.2.1 = [] := by
  induction fuel generalizing j ring r with
  | zero =>
    subst hr
    refine ⟨⟨fun h => by simp [sendPending] at h, ?_⟩, fun _ => Iff.rfl, fun _ => rfl⟩
    rintro ⟨i, hi, hi', -⟩
    omega
  | succ fuel ih =>
    rw [sendPending] at hr
    split at hr
    · next he =>
      have heq : j = next := wrapped_injOn hj (by
        have hwin : windowSize < maxSequence := by decide
        omega) he
      subst hr
      refine ⟨⟨fun h => by simp at h, ?_⟩, fun _ => Iff.rfl, fun _ => rfl⟩
      rintro ⟨i, hi, hi', -⟩
      omega
    · next hne =>
      have hlt : j < next := lt_of_le_of_ne hj fun he => hne (he ▸ rfl)
      have hslot : ringSlot (j % maxSequence) = ringSlot j := slot_mod (by decide) j
      rw [hslot, wrapped_succ] at hr
      obtain ⟨hsent, hnone, hcalls⟩ := ih (Function.update ring (ringSlot j)
        ((ring (ringSlot j)).trySend ctx).1) hlt (by omega) (by omega) rfl
      subst hr
      refine ⟨?_, fun k => ?_, fun id => ?_⟩
      · rw [Bool.or_eq_true, hsent, PendingPacket.trySend_sent]
        have hother : ∀ i, j < i → i < next → Function.update ring (ringSlot j)
            ((ring (ringSlot j)).trySend ctx).1 (ringSlot i) = ring (ringSlot i) := by
          intro i hi hi'
          refine Function.update_of_ne (fun he => ?_) _ _
          have := slot_injOn (b := j) (by omega) (by omega) le_rfl (by omega) he
          omega
        constructor
        · rintro (hd | ⟨i, hi, hi', hd⟩)
          · exact ⟨j, le_rfl, hlt, hd⟩
          · rw [hother i hi hi'] at hd
            exact ⟨i, by omega, hi', hd⟩
        · rintro ⟨i, hi, hi', hd⟩
          rcases Nat.eq_or_lt_of_le hi with rfl | hgt
          · exact .inl hd
          · exact .inr ⟨i, hgt, hi', by rwa [hother i hgt hi']⟩
      · rw [hnone k]
        by_cases hk : k = ringSlot j
        · rw [hk, Function.update_self, PendingPacket.trySend_packet]
        · rw [Function.update_of_ne hk]
      · rw [pushed, List.filterMap_append, ← pushed, ← pushed, hcalls, PendingPacket.trySend_calls]
        rfl

/-- The update of the channel has something to send or resend, or nothing is pending. -/
def Fires (ch : NetReliableChannel) (ctx : ChannelContext) : Prop :=
  ch.base.outgoingQueue ≠ [] ∨ (∀ k, (ch.pendingPackets k).packet = none) ∨
    ∃ k, (ch.pendingPackets k).due ctx = true

private theorem sendAcks_frame (ch : NetReliableChannel) (ctx : ChannelContext) :
    (ch.sendAcks ctx).1.base = ch.base ∧ (ch.sendAcks ctx).1.id = ch.id ∧
      (ch.sendAcks ctx).1.pendingPackets = ch.pendingPackets ∧
      (ch.sendAcks ctx).1.mustSendAcks = false ∧ ∀ id, pushed id (ch.sendAcks ctx).2 = [] := by
  rw [sendAcks]
  cases hm : ch.mustSendAcks with
  | true => exact ⟨rfl, rfl, rfl, rfl, fun _ => rfl⟩
  | false => exact ⟨rfl, rfl, rfl, hm, fun _ => rfl⟩

theorem Window.sendAcks (h : ch.Window base next) (ctx : ChannelContext) :
    (ch.sendAcks ctx).1.Window base next := by
  rw [NetReliableChannel.sendAcks]
  split
  · exact h.congr rfl rfl rfl
  · exact h

private theorem Window.due_iff (h : ch.Window base next) (ctx : ChannelContext) :
    (∃ i, base ≤ i ∧ i < next ∧ (ch.pendingPackets (ringSlot i)).due ctx = true) ↔
      ∃ k, (ch.pendingPackets k).due ctx = true := by
  constructor
  · rintro ⟨i, -, -, hd⟩
    exact ⟨_, hd⟩
  · rintro ⟨k, hd⟩
    have hk : (ch.pendingPackets k).packet ≠ none := fun hn => by simp [PendingPacket.due, hn] at hd
    obtain ⟨i, hi, hi', rfl⟩ := h.index hk
    exact ⟨i, hi, hi', hd⟩

/-- `send_next_packets` answers false exactly when nothing was queued and nothing was due. -/
theorem sendNextPackets_sent (h : ch.Window base next) (ctx : ChannelContext) :
    (ch.sendNextPackets ctx).2.2 = false ↔
      ch.base.outgoingQueue = [] ∧ ∀ k, (ch.pendingPackets k).due ctx = false := by
  obtain ⟨hbase, -, hpending, hmust, -⟩ := sendAcks_frame ch ctx
  obtain ⟨next', hw, hnew⟩ := (h.sendAcks ctx).fillWindow (ch.sendAcks ctx).1.base.outgoingQueue
  have hframe := admit_sameReceiver (ch.sendAcks ctx).1.base.outgoingQueue (ch.sendAcks ctx).1
  obtain ⟨hsent, -, -⟩ := sendPending_sent ctx maxSequence _ hw.base_le
    (by have hwin : windowSize < maxSequence := by decide
        have := hw.next_le
        omega) hw.next_le rfl
  rw [hw.due_iff ctx, ← hw.localSequence, ← hw.localWindowStart] at hsent
  have hfalse : (ch.sendNextPackets ctx).2.2 = false ↔
      (sendPending ctx
        (fillWindow (ch.sendAcks ctx).1.base.outgoingQueue (ch.sendAcks ctx).1).localSequence
        maxSequence
        (fillWindow (ch.sendAcks ctx).1.base.outgoingQueue (ch.sendAcks ctx).1).localWindowStart
        (fillWindow (ch.sendAcks ctx).1.base.outgoingQueue
          (ch.sendAcks ctx).1).pendingPackets).2.2 = false ∧
        (fillWindow (ch.sendAcks ctx).1.base.outgoingQueue (ch.sendAcks ctx).1).base.outgoingQueue =
          [] := by
    rw [sendNextPackets]
    simp [hframe.mustSendAcks, hmust]
  rw [hfalse, ← Bool.not_eq_true, hsent, not_exists]
  rw [hbase] at hnew ⊢
  constructor
  · rintro ⟨hdue, hqueue⟩
    have hempty : ch.base.outgoingQueue = [] := by
      by_contra hne
      rcases hnew hne with hq | ⟨k, packet, hp, hs⟩
      · exact hq hqueue
      · exact hdue k (by simp [PendingPacket.due, PendingPacket.waiting, hp, hs])
    refine ⟨hempty, fun k => ?_⟩
    have hk := hdue k
    rwa [hempty, fillWindow, hpending, Bool.not_eq_true] at hk
  · rintro ⟨hempty, hdue⟩
    rw [hempty, fillWindow, hpending]
    exact ⟨fun k => by rw [hdue k]; simp, rfl⟩

/-- What `send_next_packets` keeps, and what an answer of false leaves behind. -/
theorem sendNextPackets_frame (h : ch.Window base next) (ctx : ChannelContext) :
    (∃ next', (ch.sendNextPackets ctx).1.Window base next') ∧
      (ch.sendNextPackets ctx).1.id = ch.id ∧
      (∀ id, pushed id (ch.sendNextPackets ctx).2.1 = []) ∧
      (ch.sendNextPackets ctx).1.base.isAddedToPeerChannelSendQueue =
        ch.base.isAddedToPeerChannelSendQueue ∧
      (ch.sendNextPackets ctx).1.mustSendAcks = false ∧
      (ch.base.outgoingQueue = [] → (ch.sendNextPackets ctx).1.base.outgoingQueue = [] ∧
        ∀ k, ((ch.sendNextPackets ctx).1.pendingPackets k).packet = none ↔
          (ch.pendingPackets k).packet = none) := by
  obtain ⟨hbase, hid, hpending, hmust, hcalls⟩ := sendAcks_frame ch ctx
  obtain ⟨next', hw, -⟩ := (h.sendAcks ctx).fillWindow (ch.sendAcks ctx).1.base.outgoingQueue
  have hframe := admit_sameReceiver (ch.sendAcks ctx).1.base.outgoingQueue (ch.sendAcks ctx).1
  obtain ⟨-, hnone, hpush⟩ := sendPending_sent ctx maxSequence
    (fillWindow (ch.sendAcks ctx).1.base.outgoingQueue (ch.sendAcks ctx).1).pendingPackets
    hw.base_le (by have hwin : windowSize < maxSequence := by decide
                   have := hw.next_le
                   omega) hw.next_le rfl
  rw [← hw.localSequence, ← hw.localWindowStart] at hnone hpush
  rw [sendNextPackets]
  refine ⟨⟨next', hw.localSequence, hw.localWindowStart, hw.base_le, hw.next_le, ?_⟩,
    hframe.id.trans hid, fun id => ?_, ?_, hframe.mustSendAcks.trans hmust, fun hq => ?_⟩
  · exact fun i hi hi' hle => (hnone _).mpr (hw.empty i hi hi' hle)
  · rw [pushed, List.filterMap_append, ← pushed, ← pushed, hcalls, hpush]
    rfl
  · rw [admit_base, hbase]
  · rw [hbase, hq] at hnone ⊢
    refine ⟨rfl, fun k => ?_⟩
    rw [hnone, fillWindow, hpending]

theorem pushed_append (id : UInt8) (xs ys : List PeerCall) :
    pushed id (xs ++ ys) = pushed id xs ++ pushed id ys :=
  List.filterMap_append ..

private theorem deliver_flag (ch : NetReliableChannel) (packet : NetPacket) (id : UInt8) :
    (ch.deliver packet).1.base = ch.base ∧ pushed id (ch.deliver packet).2 = [] := by
  have hmap : ∀ packets : List NetPacket,
      pushed id (packets.map (.addReliablePacket ch.deliveryMethod)) = [] := by
    intro packets
    induction packets with
    | nil => rfl
    | cons p packets ih => exact ih
  rw [deliver]
  split <;> split
  · exact ⟨rfl, hmap _⟩
  · exact ⟨rfl, rfl⟩
  · exact ⟨rfl, rfl⟩
  · exact ⟨rfl, rfl⟩

private theorem acceptPacket_flag (ch : NetReliableChannel) (packet : NetPacket) (id : UInt8) :
    (ch.acceptPacket packet).1.base = ch.base.addToPeerChannelSendQueue.1 ∧
      pushed id (ch.acceptPacket packet).2.1 = pushed id ch.base.addToPeerChannelSendQueue.2 := by
  rw [acceptPacket]
  split
  · exact ⟨rfl, rfl⟩
  · obtain ⟨hbase, hpush⟩ := deliver_flag { ch with
      mustSendAcks := true
      base := ch.base.addToPeerChannelSendQueue.1
      outgoingAcks := setAckBit ch.outgoingAcks (packet.sequence % windowSize) } packet id
    refine ⟨hbase, ?_⟩
    rw [pushed_append, hpush, List.append_nil]

/-- A data packet changes nothing, or puts the channel into the queue. -/
theorem processPacket_flag (ch : NetReliableChannel) {packet : NetPacket}
    (hp : packet.property ≠ .ack) (id : UInt8) :
    ch.processPacket packet = (ch, [], false) ∨
      (ch.processPacket packet).1.base = ch.base.addToPeerChannelSendQueue.1 ∧
        pushed id (ch.processPacket packet).2.1 = pushed id ch.base.addToPeerChannelSendQueue.2 := by
  rw [processPacket, if_neg hp]
  simp only
  split_ifs
  · exact .inl rfl
  · exact .inl rfl
  · exact .inl rfl
  · exact .inl rfl
  · exact .inr (acceptPacket_flag (ch.moveWindow _) packet id)
  · exact .inr (acceptPacket_flag ch packet id)

end NetReliableChannel

/-- The compare-and-swap leaves the flag up and pushes the channel once if it was down. -/
theorem NetBaseChannel.addToPeerChannelSendQueue_flag {b : NetBaseChannel}
    (h : b.isAddedToPeerChannelSendQueue ≤ 1) (id : UInt8) :
    b.addToPeerChannelSendQueue.1.isAddedToPeerChannelSendQueue = 1 ∧
      b.isAddedToPeerChannelSendQueue + (pushed id b.addToPeerChannelSendQueue.2).count id = 1 := by
  rw [addToPeerChannelSendQueue]
  split
  · next h0 => simp [h0, pushed]
  · next h0 =>
    have h1 : b.isAddedToPeerChannelSendQueue = 1 := by omega
    simp [h1, pushed]

namespace SendQueue
open NetReliableChannel

/-- The flag counts the channel's entries in the queue, and is up while there is work. -/
structure Inv (s : SendQueue) : Prop where
  window : ∃ base next, s.channel.Window base next
  flag_eq : s.channel.base.isAddedToPeerChannelSendQueue = s.queue.count s.channel.id
  flag_le : s.channel.base.isAddedToPeerChannelSendQueue ≤ 1
  work : HasWork s.channel → s.channel.base.isAddedToPeerChannelSendQueue = 1

variable {s : SendQueue}

theorem Inv.scheduled (h : Inv s) : Scheduled s := fun hw =>
  ⟨h.work hw, h.flag_eq ▸ h.work hw⟩

theorem Inv.started {ordered : Bool} {id : UInt8} (h : Started ordered id s) : Inv s := by
  obtain ⟨hch, hq⟩ := h
  refine ⟨⟨0, 0, hch ▸ Window.new ordered id⟩, ?_, ?_, ?_⟩
  · rw [hch]
    exact (List.count_eq_zero.mpr hq).symm
  · rw [hch]
    exact Nat.zero_le _
  · rw [hch]
    rintro (⟨k, hk⟩ | hk | hk)
    · exact absurd rfl hk
    · exact absurd rfl hk
    · cases hk

/-- After a call that puts the channel into the queue. -/
private theorem Inv.enqueued (h : Inv s) {b : NetBaseChannel} {ch : NetReliableChannel}
    {calls : List PeerCall} (hw : ∃ base next, ch.Window base next) (hid : ch.id = s.channel.id)
    (hb : b.isAddedToPeerChannelSendQueue = s.channel.base.isAddedToPeerChannelSendQueue)
    (hbase : ch.base = b.addToPeerChannelSendQueue.1)
    (hpush : pushed s.channel.id calls = pushed s.channel.id b.addToPeerChannelSendQueue.2) :
    Inv (s.apply ch calls) := by
  obtain ⟨hflag, hsum⟩ :=
    NetBaseChannel.addToPeerChannelSendQueue_flag (hb ▸ h.flag_le) s.channel.id
  rw [← hbase] at hflag
  refine ⟨hw, ?_, hflag.le, fun _ => hflag⟩
  simp only [SendQueue.apply]
  rw [hid, hpush, List.count_append, ← h.flag_eq, ← hb, hsum, hflag]

theorem Inv.addToQueue (h : Inv s) (packet : NetPacket) : Inv (s.addToQueue packet) := by
  obtain ⟨base, next, hw⟩ := h.window
  rw [SendQueue.addToQueue, NetReliableChannel.addToQueue, NetBaseChannel.addToQueue]
  split
  · refine ⟨⟨base, next, hw⟩, ?_, h.flag_le, h.work⟩
    simp [SendQueue.apply, pushed, h.flag_eq]
  · exact h.enqueued (b := { s.channel.base with
      outgoingQueue := s.channel.base.outgoingQueue ++ [packet] })
      ⟨base, next, hw.congr rfl rfl rfl⟩ rfl rfl rfl rfl

theorem Inv.processPacket (h : Inv s) (packet : NetPacket) : Inv (s.processPacket packet) := by
  obtain ⟨base, next, hw⟩ := h.window
  rw [SendQueue.processPacket]
  by_cases hp : packet.property = .ack
  · obtain ⟨hframe, hbase⟩ := processAck_frame s.channel packet
    obtain ⟨hnone, hpush⟩ := processAck_pending packet s.channel.id s.channel
    rw [NetReliableChannel.processPacket, if_pos hp]
    refine ⟨⟨_, next, (hw.processAck packet).choose_spec⟩, ?_, ?_, ?_⟩
    · simp only [SendQueue.apply]
      rw [hframe.id, hpush, List.append_nil, hbase, h.flag_eq]
    · exact hbase ▸ h.flag_le
    · intro hwork
      simp only [SendQueue.apply] at hwork ⊢
      rw [hbase]
      apply h.work
      rcases hwork with ⟨k, hk⟩ | hq | hm
      · exact .inl ⟨k, fun hn => hk (hnone k hn)⟩
      · exact .inr (.inl (hbase ▸ hq))
      · exact .inr (.inr (hframe.mustSendAcks ▸ hm))
  · have hsame := processPacket_sameSender s.channel hp
    rcases processPacket_flag s.channel hp s.channel.id with heq | ⟨hbase, hpush⟩
    · rw [heq]
      refine ⟨⟨base, next, hw⟩, ?_, h.flag_le, h.work⟩
      simp [SendQueue.apply, pushed, h.flag_eq]
    · exact h.enqueued ⟨base, next, hw.congr hsame.localSequence hsame.localWindowStart
        hsame.pendingPackets⟩ hsame.id rfl hbase hpush

/-- An update that meets the condition keeps the channel scheduled, and no other does. -/
theorem Inv.update (h : Inv s) (ctx : ChannelContext)
    (hq : s.queue.head? = some s.channel.id) :
    (Scheduled (s.update ctx) ↔ Fires s.channel ctx) ∧
      (Fires s.channel ctx → Inv (s.update ctx)) := by
  obtain ⟨base, next, hw⟩ := h.window
  obtain ⟨hw', hid, hpush, hflag, hmust, hkeep⟩ := sendNextPackets_frame hw ctx
  have hsent := sendNextPackets_sent hw ctx
  obtain ⟨rest, hrest⟩ : ∃ rest, s.queue = s.channel.id :: rest := by
    cases hs : s.queue with
    | nil => simp [hs] at hq
    | cons k rest => exact ⟨rest, by simpa [hs] using hq⟩
  have hcount : s.channel.base.isAddedToPeerChannelSendQueue = 1 ∧ rest.count s.channel.id = 0 := by
    have heq := h.flag_eq
    have hle := h.flag_le
    rw [hrest, List.count_cons_self] at heq
    omega
  have hupdate : s.update ctx = ⟨{ (s.channel.sendNextPackets ctx).1 with
      base := (s.channel.sendNextPackets ctx).1.base.checkQueue
        (s.channel.sendNextPackets ctx).2.2 },
      rest ++ if (s.channel.sendNextPackets ctx).2.2 then [s.channel.id] else []⟩ := by
    simp only [SendQueue.update, SendQueue.apply, sendAndCheckQueue, hrest, List.tail_cons, hpush,
      List.append_nil, hid]
  cases hs : (s.channel.sendNextPackets ctx).2.2 with
  | true =>
    have hinv : Inv (s.update ctx) := by
      rw [hupdate, hs]
      refine ⟨⟨base, hw'.choose, hw'.choose_spec.congr rfl rfl rfl⟩, ?_, ?_, fun _ => ?_⟩
      · simp only [NetBaseChannel.checkQueue, if_true, List.count_append, hid, hcount.2, hflag,
          hcount.1]
        simp
      · exact (hflag.trans hcount.1).le
      · exact hflag.trans hcount.1
    have hfires : Fires s.channel ctx := by
      by_contra hno
      rw [Fires, not_or, not_or, not_exists] at hno
      have hfalse := hsent.mpr ⟨not_not.mp hno.1, fun k => by simpa using hno.2.2 k⟩
      rw [hs] at hfalse
      cases hfalse
    exact ⟨⟨fun _ => hfires, fun _ => hinv.scheduled⟩, fun _ => hinv⟩
  | false =>
    obtain ⟨hempty, hdue⟩ := hsent.mp hs
    obtain ⟨hqueue, hnone⟩ := hkeep hempty
    have hfires : Fires s.channel ctx ↔ ∀ k, (s.channel.pendingPackets k).packet = none := by
      simp [Fires, hempty, hdue]
    have hwork : HasWork (s.update ctx).channel ↔
        ∃ k, (s.channel.pendingPackets k).packet ≠ none := by
      rw [hupdate, hs]
      simp [HasWork, NetBaseChannel.checkQueue, hqueue, hmust, hnone]
    have hdown : (s.update ctx).channel.base.isAddedToPeerChannelSendQueue = 0 := by
      rw [hupdate, hs]
      rfl
    have hidle : ¬ HasWork (s.update ctx).channel ↔ Fires s.channel ctx := by
      rw [hwork, hfires]
      simp
    constructor
    · rw [← hidle, Scheduled, hdown]
      simp
    · intro hf
      refine ⟨?_, ?_, ?_, fun hwk => absurd hwk (hidle.mpr hf)⟩
      · rw [hupdate]
        exact ⟨base, hw'.choose, hw'.choose_spec.congr rfl rfl rfl⟩
      · rw [hdown, hupdate, hs]
        simp [hid, hcount.2]
      · rw [hdown]
        exact Nat.zero_le _

theorem Inv.step {s' : SendQueue} (h : Inv s) (hs : Step Fires s s') : Inv s' := by
  cases hs with
  | addToQueue packet => exact h.addToQueue packet
  | processPacket packet => exact h.processPacket packet
  | update ctx hq hp => exact (h.update ctx hq).2 hp
  | push other ho =>
    refine ⟨h.window, ?_, h.flag_le, h.work⟩
    simp [h.flag_eq, List.count_append, ho]
  | updateOther other ho hq again =>
    obtain ⟨rest, hrest⟩ : ∃ rest, s.queue = other :: rest := by
      cases hs : s.queue with
      | nil => simp [hs] at hq
      | cons k rest => exact ⟨rest, by simpa [hs] using hq⟩
    refine ⟨h.window, ?_, h.flag_le, h.work⟩
    have heq := h.flag_eq
    rw [hrest, List.count_cons_of_ne ho] at heq
    cases again <;> simp [hrest, heq, List.count_append, ho]

/-- Retransmission stays scheduled in every run whose updates of the channel find something to
send or nothing pending, and an update that does not is the one that loses it. -/
theorem retransmission_scheduled {ordered : Bool} {id : UInt8} {s : SendQueue}
    (h : Reachable (Started ordered id) (Step Fires) s) :
    Scheduled s ∧ ∀ ctx, s.queue.head? = some s.channel.id →
      (Scheduled (s.update ctx) ↔ Fires s.channel ctx) := by
  have hinv : Inv s := h.invariant (fun _ hs => Inv.started hs) (fun _ _ hi hs => hi.step hs)
  exact ⟨hinv.scheduled, fun ctx hq => (hinv.update ctx hq).1⟩

/-- One packet is queued and sent. -/
def oneSent : SendQueue :=
  (SendQueue.addToQueue ⟨.new true 2, []⟩ (.new .channeled 1
    NetPacket.three_le_channeled)).update ⟨1, 27, 0⟩

private theorem oneSent_reachable (P : NetReliableChannel → ChannelContext → Prop)
    (h : ∀ ch ctx, Fires ch ctx → P ch ctx) : Reachable (Started true 2) (Step P) oneSent := by
  have h0 : Reachable (Started true 2) (Step P) ⟨.new true 2, []⟩ :=
    .initial ⟨rfl, List.not_mem_nil⟩
  exact (h0.tail (.addToQueue _ _)).tail (.update _ ⟨1, 27, 0⟩ rfl (h _ _ (.inl (by simp
    [SendQueue.addToQueue, NetReliableChannel.addToQueue, NetBaseChannel.addToQueue, apply,
      NetReliableChannel.new, NetBaseChannel.new]))))

theorem retransmission_scheduled_oneSent : Scheduled oneSent ∧
    ∀ ctx, oneSent.queue.head? = some oneSent.channel.id →
      (Scheduled (oneSent.update ctx) ↔ Fires oneSent.channel ctx) :=
  retransmission_scheduled (oneSent_reachable Fires fun _ _ h => h)

/-- The next update comes before the resend delay is over, and the channel leaves the queue with
its packet unacknowledged. -/
theorem not_always_scheduled : ∃ s, Reachable (Started true 2) (Step fun _ _ => True) s ∧
    (s.channel.pendingPackets 0).packet ≠ none ∧ ¬ Scheduled s := by
  have hsome : ((oneSent.update ⟨1, 27, 0⟩).channel.pendingPackets 0).packet ≠ none := by
    rw [← Option.isSome_iff_ne_none]
    decide +kernel
  refine ⟨oneSent.update ⟨1, 27, 0⟩,
    (oneSent_reachable _ fun _ _ _ => trivial).tail (.update _ _ (by decide +kernel) trivial),
    hsome, fun hs => ?_⟩
  have hflag : (oneSent.update ⟨1, 27, 0⟩).channel.base.isAddedToPeerChannelSendQueue = 0 := by
    decide +kernel
  have hup := (hs (.inl ⟨0, hsome⟩)).1
  rw [hflag] at hup
  cases hup

end SendQueue

end LiteNet.Channels
