import LiteNet.Channels.ReliableLink
import LiteNet.Channels.Sequenced

/-! # Two sequenced channels and the network between them

Packets are numbered from one, so the stream starts with a packet that is never
sent. The network keeps every datagram with its true number and hands any of them
over at any time, except one that is too old for the receiver's numbers.
-/

namespace LiteNet.Channels
open Library Wire Relation

/-- The packets a channel queues receive events for. -/
def receivePackets (calls : List PeerCall) : List NetPacket :=
  calls.filterMap fun
    | .createReceiveEvent packet _ _ _ => some packet
    | _ => none

/-- The data packets among those a channel sends. -/
def dataPackets (calls : List PeerCall) : List NetPacket :=
  (userData calls).filter (·.property = .channeled)

structure SequencedLink where
  sender : NetSequencedChannel
  receiver : NetSequencedChannel
  /-- data packets sent so far, with their true numbers -/
  toReceiver : List (ℕ × Bytes)
  /-- packets given to the sender's `add_to_queue` -/
  given : List NetPacket
  /-- packets the receiver queued an event for -/
  delivered : List NetPacket
  /-- `m_local_sequence` of the sender, not wrapped -/
  numbered : ℕ
  /-- `m_remote_sequence` of the receiver, not wrapped -/
  newest : ℕ

namespace SequencedLink

def initial (reliable : Bool) (id : UInt8) : SequencedLink where
  sender := .new reliable id
  receiver := .new reliable id
  toReceiver := []
  given := []
  delivered := []
  numbered := 0
  newest := 0

/-- The given packets, each at its number. -/
def stream (l : SequencedLink) : List NetPacket := .empty :: l.given

def submit (l : SequencedLink) (packet : NetPacket) : SequencedLink :=
  { l with
    sender := (l.sender.addToQueue packet).1
    given := l.given ++ [packet] }

/-- The numbers of the data packets that the next send of the sender sends: those of the queued
packets, or that of the last packet again. -/
def sendNumbers (l : SequencedLink) : List ℕ :=
  match l.sender.base.outgoingQueue with
  | [] => [l.numbered]
  | queue => List.range' (l.numbered + 1) queue.length

def send (l : SequencedLink) (ctx : ChannelContext) : SequencedLink :=
  let sent := l.sender.sendAndCheckQueue ctx
  { l with
    sender := sent.1
    toReceiver := l.toReceiver ++
      l.sendNumbers.zip ((dataPackets sent.2.1).map NetPacket.wire)
    numbered := l.numbered + l.sender.base.outgoingQueue.length }

def deliver (l : SequencedLink) (number : ℕ) (bytes : Bytes) : SequencedLink :=
  let processed := l.receiver.processPacket (.received bytes)
  { l with
    receiver := processed.1
    delivered := l.delivered ++ receivePackets processed.2.1
    newest := if (receivePackets processed.2.1).isEmpty then l.newest else number }

/-- One action of either channel or of the network. The data of the other direction and all
acknowledgements are arbitrary. -/
inductive Step : SequencedLink → SequencedLink → Prop
  | submit (l : SequencedLink) (packet : NetPacket) (hp : packet.property = .channeled)
      (hs : channeledHeaderSize ≤ packet.size) : Step l (l.submit packet)
  | send (l : SequencedLink) (ctx : ChannelContext)
      (hn : ctx.connectNumber.toNat < maxConnectionNumber) : Step l (l.send ctx)
  | deliver (l : SequencedLink) (number : ℕ) (bytes : Bytes) (hm : (number, bytes) ∈ l.toReceiver)
      (hold : l.newest ≤ number + halfMaxSequence) : Step l (l.deliver number bytes)
  | senderReceives (l : SequencedLink) (packet : NetPacket) :
      Step l { l with sender := (l.sender.processPacket packet).1 }
  | receiverAcked (l : SequencedLink) (packet : NetPacket) (hp : packet.property = .ack) :
      Step l { l with receiver := (l.receiver.processPacket packet).1 }
  | receiverQueues (l : SequencedLink) (packet : NetPacket) :
      Step l { l with receiver := (l.receiver.addToQueue packet).1 }
  | receiverSends (l : SequencedLink) (ctx : ChannelContext) :
      Step l { l with receiver := (l.receiver.sendAndCheckQueue ctx).1 }

/-- The numbers of both sides and of the datagrams between them are those of the stream. -/
structure Numbers (l : SequencedLink) : Prop where
  given_channeled : ∀ p ∈ l.given, p.property = .channeled ∧ channeledHeaderSize ≤ p.size
  queue_eq : l.sender.base.outgoingQueue = l.given.drop l.numbered
  canEnqueue : l.sender.base.canEnqueue = true
  numbered_le : l.numbered ≤ l.given.length
  localSequence_eq : l.sender.localSequence = l.numbered % maxSequence
  last : ∀ p, l.sender.lastPacket = some p → 1 ≤ l.numbered ∧ Carries l.stream l.numbered p
  unreliable : l.sender.reliable = false → l.sender.lastPacket = none
  ack : ∀ p, l.sender.ackPacket = some p → p.property = .ack
  data : ∀ d ∈ l.toReceiver, 1 ≤ d.1 ∧ d.1 ≤ l.numbered ∧ Carries l.stream d.1 (.received d.2)
  remoteSequence_eq : l.receiver.remoteSequence = l.newest % maxSequence
  delivered : ∃ numbers : List ℕ, numbers.Pairwise (· < ·) ∧
    (∀ n ∈ numbers, 1 ≤ n ∧ n ≤ l.newest) ∧
    List.Forall₂ (Carries l.stream) numbers l.delivered

theorem Numbers.initial (reliable : Bool) (id : UInt8) : Numbers (initial reliable id) where
  given_channeled := by simp [SequencedLink.initial]
  queue_eq := rfl
  canEnqueue := rfl
  numbered_le := le_rfl
  localSequence_eq := rfl
  last := nofun
  unreliable := fun _ => rfl
  ack := by
    intro p hp
    cases reliable with
    | false => cases hp
    | true =>
      cases hp
      exact NetPacket.property_setProperty _ _
  data := by simp [SequencedLink.initial]
  remoteSequence_eq := rfl
  delivered := ⟨[], .nil, by simp, .nil⟩

variable {l : SequencedLink}

theorem Numbers.submit (h : Numbers l) {packet : NetPacket} (hp : packet.property = .channeled)
    (hs : channeledHeaderSize ≤ packet.size) : Numbers (l.submit packet) := by
  have hcarries : ∀ n p, Carries l.stream n p → Carries (l.submit packet).stream n p :=
    fun n p hc => hc.append packet
  have hqueue : (l.sender.addToQueue packet).1.base.outgoingQueue =
      l.sender.base.outgoingQueue ++ [packet] := by
    change (l.sender.base.addToQueue packet).1.outgoingQueue = _
    rw [NetBaseChannel.addToQueue, h.canEnqueue]
    exact NetBaseChannel.addToPeerChannelSendQueue_outgoingQueue _
  have hcan : (l.sender.addToQueue packet).1.base.canEnqueue = true := by
    change (l.sender.base.addToQueue packet).1.canEnqueue = true
    rw [NetBaseChannel.addToQueue, h.canEnqueue]
    exact NetBaseChannel.addToPeerChannelSendQueue_canEnqueue _
  obtain ⟨numbers, hpair, hle, hall⟩ := h.delivered
  exact {
    given_channeled := by
      intro p hm
      rcases List.mem_append.mp hm with hm | hm
      · exact h.given_channeled p hm
      · rw [List.mem_singleton.mp hm]
        exact ⟨hp, hs⟩
    queue_eq := by
      refine hqueue.trans ?_
      rw [h.queue_eq]
      exact (List.drop_append_of_le_length h.numbered_le).symm
    canEnqueue := hcan
    numbered_le := by
      have := h.numbered_le
      simp only [SequencedLink.submit, List.length_append]
      omega
    localSequence_eq := h.localSequence_eq
    last := fun p hl => ⟨(h.last p hl).1, hcarries _ _ (h.last p hl).2⟩
    unreliable := h.unreliable
    ack := h.ack
    data := fun d hd => ⟨(h.data d hd).1, (h.data d hd).2.1, hcarries _ _ (h.data d hd).2.2⟩
    remoteSequence_eq := h.remoteSequence_eq
    delivered := ⟨numbers, hpair, hle, hall.imp fun n p hc => hcarries n p hc⟩ }

/-- What sending a queue that follows number `n` makes of a channel, with the packets sent. -/
structure SendsQueue (stream queue : List NetPacket) (n : ℕ) (ch ch' : NetSequencedChannel)
    (calls : List PeerCall) : Prop where
  localSequence_eq : ch'.localSequence = (n + queue.length) % maxSequence
  base_eq : ch'.base = { ch.base with outgoingQueue := [] }
  reliable_eq : ch'.reliable = ch.reliable
  ackPacket_eq : ch'.ackPacket = ch.ackPacket
  unreliable : ch.reliable = false → ch'.lastPacket = none
  last : ∀ p, ch'.lastPacket = some p →
    queue = [] ∧ ch.lastPacket = some p ∨ queue ≠ [] ∧ Carries stream (n + queue.length) p
  packets : List.Forall₂ (Carries stream) (List.range' (n + 1) queue.length) (userData calls)

theorem sendQueued_sends {stream : List NetPacket} {ctx : ChannelContext}
    (hn : ctx.connectNumber.toNat < maxConnectionNumber) (queue : List NetPacket)
    (hq : ∀ p ∈ queue, p.property = .channeled ∧ channeledHeaderSize ≤ p.size) (n : ℕ)
    (hstream : stream.drop (n + 1) = queue) (ch : NetSequencedChannel)
    (hl : ch.localSequence = n % maxSequence) (hu : ch.reliable = false → ch.lastPacket = none) :
    SendsQueue stream queue n ch (NetSequencedChannel.sendQueued ctx queue ch).1
      (NetSequencedChannel.sendQueued ctx queue ch).2 := by
  induction queue generalizing n ch with
  | nil => exact ⟨hl, rfl, rfl, rfl, hu, fun p hp => .inl ⟨rfl, hp⟩, .nil⟩
  | cons packet queue ih =>
    have hhead : stream[n + 1]? = some packet := by
      rw [← List.head?_drop, hstream, List.head?_cons]
    have htail : stream.drop (n + 1 + 1) = queue := by
      rw [← List.drop_drop, hstream, List.drop_one, List.tail_cons]
    obtain ⟨hproperty, hsize⟩ := hq packet List.mem_cons_self
    have hnext : (ch.localSequence + 1) % maxSequence = (n + 1) % maxSequence := by
      rw [hl, wrapped_succ]
    have hstamped := (Carries.stamp hhead hproperty hsize ch.id).setConnectionNumber hn
    have hcount : n + 1 + queue.length = n + (packet :: queue).length := by
      rw [List.length_cons]
      omega
    have hrest := ih (fun p hp => hq p (List.mem_cons_of_mem _ hp)) (n + 1) htail
    rw [NetSequencedChannel.sendQueued]
    simp only [hnext]
    generalize ((packet.setSequence ((n + 1) % maxSequence)).setChannelId
      ch.id).setConnectionNumber ctx.connectNumber = sent at hstamped ⊢
    split
    · next hlast =>
      -- the last packet of the queue stays with the channel
      rw [Bool.and_eq_true, List.isEmpty_iff] at hlast
      obtain ⟨hreliable, rfl⟩ := hlast
      exact ⟨rfl, rfl, rfl, rfl, fun hf => absurd (hreliable.symm.trans hf) nofun,
        fun p hp => .inr ⟨nofun, Option.some.inj hp ▸ hstamped⟩, .cons hstamped .nil⟩
    · next hlast =>
      have hr := hrest { ch with localSequence := (n + 1) % maxSequence } rfl hu
      refine ⟨hr.localSequence_eq.trans (by rw [hcount]), hr.base_eq, hr.reliable_eq,
        hr.ackPacket_eq, hr.unreliable, fun p hp => .inr ⟨nofun, ?_⟩, .cons hstamped hr.packets⟩
      rw [← hcount]
      rcases hr.last p hp with ⟨rfl, hch⟩ | ⟨-, hc⟩
      · have hreliable : ch.reliable = false := by simpa using hlast
        rw [hu hreliable] at hch
        cases hch
      · exact hc

/-- What a send makes of the sender, with the data packets sent and their numbers. -/
structure Sends (l : SequencedLink) (ch : NetSequencedChannel) (calls : List PeerCall) : Prop where
  localSequence_eq : ch.localSequence =
    (l.numbered + l.sender.base.outgoingQueue.length) % maxSequence
  queue_eq : ch.base.outgoingQueue = []
  canEnqueue : ch.base.canEnqueue = true
  unreliable : ch.reliable = false → ch.lastPacket = none
  ack : ∀ p, ch.ackPacket = some p → p.property = .ack
  last : ∀ p, ch.lastPacket = some p →
    1 ≤ l.numbered + l.sender.base.outgoingQueue.length ∧
      Carries l.stream (l.numbered + l.sender.base.outgoingQueue.length) p
  packets : ∀ d ∈ l.sendNumbers.zip (dataPackets calls),
    1 ≤ d.1 ∧ d.1 ≤ l.numbered + l.sender.base.outgoingQueue.length ∧ Carries l.stream d.1 d.2

theorem dataPackets_eq {stream packets : List NetPacket} {numbers : List ℕ}
    (h : List.Forall₂ (Carries stream) numbers packets) :
    packets.filter (fun p => p.property = .channeled) = packets := by
  rw [List.filter_eq_self]
  intro p hp
  obtain ⟨i, hi, rfl⟩ := List.getElem_of_mem hp
  have hc := h.get (i := i) (by rw [h.length_eq]; exact hi) hi
  simpa using hc.property

theorem Numbers.sendQueued (h : Numbers l) {ctx : ChannelContext}
    (hn : ctx.connectNumber.toNat < maxConnectionNumber) :
    Sends l (NetSequencedChannel.sendQueued ctx l.sender.base.outgoingQueue l.sender).1
      (NetSequencedChannel.sendQueued ctx l.sender.base.outgoingQueue l.sender).2 := by
  have hstream : l.stream.drop (l.numbered + 1) = l.sender.base.outgoingQueue := h.queue_eq.symm
  have hs := sendQueued_sends hn l.sender.base.outgoingQueue (fun p hp => h.given_channeled p
    (List.mem_of_mem_drop (h.queue_eq ▸ hp))) l.numbered hstream l.sender h.localSequence_eq
    h.unreliable
  refine ⟨hs.localSequence_eq, by rw [hs.base_eq], by rw [hs.base_eq]; exact h.canEnqueue,
    fun hf => hs.unreliable (hs.reliable_eq ▸ hf), by rw [hs.ackPacket_eq]; exact h.ack,
    fun p hp => ?_, ?_⟩
  · rcases hs.last p hp with ⟨hnil, hlast⟩ | ⟨hne, hc⟩
    · rw [hnil]
      exact h.last p hlast
    · have := List.length_pos_iff.mpr hne
      exact ⟨by omega, hc⟩
  · rw [dataPackets, dataPackets_eq hs.packets]
    intro d hd
    cases hq : l.sender.base.outgoingQueue with
    | nil =>
      have hzero : l.sender.base.outgoingQueue.length = 0 := by rw [hq, List.length_nil]
      have hnone := hs.packets.length_eq
      rw [List.length_range', hzero] at hnone
      rw [List.length_eq_zero_iff.mp hnone.symm, List.zip_nil_right] at hd
      cases hd
    | cons packet queue =>
      have hnumbers : l.sendNumbers =
          List.range' (l.numbered + 1) l.sender.base.outgoingQueue.length := by
        rw [sendNumbers, hq]
      rw [hnumbers] at hd
      have hmem := (List.mem_range'_1.mp (List.of_mem_zip hd).1)
      rw [← hq]
      exact ⟨by omega, by omega, (List.forall₂_iff_zip.mp hs.packets).2 hd⟩

theorem Numbers.resendLast (h : Numbers l) {ctx : ChannelContext}
    (hn : ctx.connectNumber.toNat < maxConnectionNumber)
    (hqueue : l.sender.base.outgoingQueue = []) :
    Sends l (l.sender.resendLast ctx).1 (l.sender.resendLast ctx).2 := by
  have hidle : Sends l l.sender [] := by
    refine ⟨?_, hqueue, h.canEnqueue, h.unreliable, h.ack, ?_, ?_⟩
    · rw [hqueue]
      exact h.localSequence_eq
    · rw [hqueue]
      exact h.last
    · rw [dataPackets, userData, List.filterMap_nil, List.filter_nil, List.zip_nil_right]
      exact fun d hd => absurd hd List.not_mem_nil
  rw [NetSequencedChannel.resendLast]
  dsimp only
  split
  · split
    · exact hidle
    · next packet hlast =>
      obtain ⟨hpos, hc⟩ := h.last packet hlast
      have hsent := hc.setConnectionNumber hn
      generalize packet.setConnectionNumber ctx.connectNumber = sent at hsent ⊢
      refine ⟨hidle.localSequence_eq, hqueue, h.canEnqueue, fun hf => ?_, h.ack, ?_, ?_⟩
      · rw [h.unreliable hf] at hlast
        cases hlast
      · rw [hqueue]
        intro p hp
        cases hp
        exact ⟨hpos, hsent⟩
      · have hdata : dataPackets [.sendUserData sent] = [sent] := by
          simp [dataPackets, userData, hsent.property]
        rw [hdata, sendNumbers, hqueue]
        intro d hd
        rw [List.mem_singleton.mp hd]
        exact ⟨hpos, le_rfl, hsent⟩
  · exact hidle

theorem Sends.sendAck {ch : NetSequencedChannel} {calls : List PeerCall} (h : Sends l ch calls)
    (ctx : ChannelContext) : Sends l (ch.sendAck ctx).1 (calls ++ (ch.sendAck ctx).2) := by
  have hnone : Sends l ch (calls ++ []) := by
    rw [List.append_nil]
    exact h
  rw [NetSequencedChannel.sendAck]
  split
  · exact hnone
  · next ack hack =>
    split
    · have hp : ((ack.setSequence ch.remoteSequence).setConnectionNumber
          ctx.connectNumber).property = .ack := by
        rw [NetPacket.property_setConnectionNumber, NetPacket.property_setSequence, h.ack ack hack]
      dsimp only
      generalize (ack.setSequence ch.remoteSequence).setConnectionNumber
        ctx.connectNumber = sent at hp ⊢
      refine ⟨h.localSequence_eq, h.queue_eq, h.canEnqueue, h.unreliable,
        fun p he => Option.some.inj he ▸ hp, h.last, ?_⟩
      have hdata : dataPackets (calls ++ [.sendUserData sent]) = dataPackets calls := by
        simp [dataPackets, userData, hp]
      rw [hdata]
      exact h.packets
    · exact hnone

theorem Numbers.send (h : Numbers l) {ctx : ChannelContext}
    (hn : ctx.connectNumber.toNat < maxConnectionNumber) : Numbers (l.send ctx) := by
  have hs : Sends l (l.sender.sendNextPackets ctx).1 (l.sender.sendNextPackets ctx).2.1 := by
    rw [NetSequencedChannel.sendNextPackets]
    dsimp only
    split
    · next hidle =>
      rw [Bool.and_eq_true, List.isEmpty_iff] at hidle
      exact (h.resendLast hn hidle.2).sendAck ctx
    · exact (h.sendQueued hn).sendAck ctx
  have hlength : l.numbered + l.sender.base.outgoingQueue.length = l.given.length := by
    rw [h.queue_eq, List.length_drop]
    have := h.numbered_le
    omega
  generalize hsent : l.sender.sendNextPackets ctx = sent at hs
  exact {
    given_channeled := h.given_channeled
    queue_eq := by
      have hdrop : l.given.drop (l.numbered + l.sender.base.outgoingQueue.length) = [] := by
        rw [hlength, List.drop_length]
      refine Eq.trans ?_ hdrop.symm
      simp only [SequencedLink.send, NetSequencedChannel.sendAndCheckQueue, hsent,
        NetBaseChannel.checkQueue_outgoingQueue]
      exact hs.queue_eq
    canEnqueue := by
      simp only [SequencedLink.send, NetSequencedChannel.sendAndCheckQueue, hsent,
        NetBaseChannel.checkQueue_canEnqueue]
      exact hs.canEnqueue
    numbered_le := hlength.le
    localSequence_eq := by
      simp only [SequencedLink.send, NetSequencedChannel.sendAndCheckQueue, hsent]
      exact hs.localSequence_eq
    last := by
      simp only [SequencedLink.send, NetSequencedChannel.sendAndCheckQueue, hsent]
      exact hs.last
    unreliable := by
      simp only [SequencedLink.send, NetSequencedChannel.sendAndCheckQueue, hsent]
      exact hs.unreliable
    ack := by
      simp only [SequencedLink.send, NetSequencedChannel.sendAndCheckQueue, hsent]
      exact hs.ack
    data := by
      simp only [SequencedLink.send, NetSequencedChannel.sendAndCheckQueue, hsent]
      intro d hd
      rcases List.mem_append.mp hd with hd | hd
      · obtain ⟨hpos, hle, hc⟩ := h.data d hd
        exact ⟨hpos, Nat.le_add_right_of_le hle, hc⟩
      · rw [List.zip_map_right, List.mem_map] at hd
        obtain ⟨e, he, rfl⟩ := hd
        obtain ⟨hpos, hle, hc⟩ := hs.packets e he
        exact ⟨hpos, hle, hc.received⟩
    remoteSequence_eq := h.remoteSequence_eq
    delivered := h.delivered }

/-- A number at most half the range behind the newest one is newer when its distance is
positive. -/
theorem newer_of_relative {number newest : ℕ} (hold : newest ≤ number + halfMaxSequence)
    (h : 0 < relativeSequenceNumber ((number % maxSequence : ℕ) : ℤ)
      ((newest % maxSequence : ℕ) : ℤ)) : newest < number := by
  by_contra hle
  rw [relativeSequenceNumber_wrapped hold (by have : 0 < halfMaxSequence := by decide
                                              omega)] at h
  omega

@[simp] theorem receivePackets_append (a b : List PeerCall) :
    receivePackets (a ++ b) = receivePackets a ++ receivePackets b := List.filterMap_append

theorem receivePackets_addToPeerChannelSendQueue (b : NetBaseChannel) :
    receivePackets b.addToPeerChannelSendQueue.2 = [] := by
  rw [NetBaseChannel.addToPeerChannelSendQueue]
  split <;> rfl

/-- A data packet is ignored, or it is newer and an event is queued for it. -/
theorem processPacket_data (ch : NetSequencedChannel) {packet : NetPacket}
    (hp : packet.property ≠ .ack) :
    (ch.processPacket packet).1.remoteSequence = ch.remoteSequence ∧
        receivePackets (ch.processPacket packet).2.1 = [] ∨
      0 < relativeSequenceNumber packet.sequence ch.remoteSequence ∧
        (ch.processPacket packet).1.remoteSequence = packet.sequence ∧
        receivePackets (ch.processPacket packet).2.1 = [packet] := by
  have hdata : (ch.processData packet).1.remoteSequence = ch.remoteSequence ∧
        receivePackets (ch.processData packet).2.1 = [] ∨
      0 < relativeSequenceNumber packet.sequence ch.remoteSequence ∧
        (ch.processData packet).1.remoteSequence = packet.sequence ∧
        receivePackets (ch.processData packet).2.1 = [packet] := by
    rw [NetSequencedChannel.processData]
    split
    · next hnew => exact .inr ⟨hnew.2, rfl, rfl⟩
    · exact .inl ⟨rfl, rfl⟩
  rw [NetSequencedChannel.processPacket]
  split
  · exact .inl ⟨rfl, rfl⟩
  · dsimp only
    split
    · rw [receivePackets_append, receivePackets_addToPeerChannelSendQueue, List.append_nil]
      exact hdata
    · exact hdata

theorem Numbers.deliver (h : Numbers l) {number : ℕ} {bytes : Bytes}
    (hm : (number, bytes) ∈ l.toReceiver) (hold : l.newest ≤ number + halfMaxSequence) :
    Numbers (l.deliver number bytes) := by
  obtain ⟨hpos, hle, hc⟩ := h.data _ hm
  obtain ⟨numbers, hpair, hbound, hall⟩ := h.delivered
  have hp : (NetPacket.received bytes).property ≠ .ack := by
    rw [hc.property]
    decide
  have hreceived : (l.deliver number bytes).receiver.remoteSequence =
        (l.deliver number bytes).newest % maxSequence ∧
      ∃ numbers : List ℕ, numbers.Pairwise (· < ·) ∧
        (∀ n ∈ numbers, 1 ≤ n ∧ n ≤ (l.deliver number bytes).newest) ∧
        List.Forall₂ (Carries l.stream) numbers (l.deliver number bytes).delivered := by
    rcases processPacket_data l.receiver hp with ⟨hsame, hnone⟩ | ⟨hnew, hnext, hone⟩
    · simp only [SequencedLink.deliver, hnone, hsame, List.isEmpty_nil, if_true, List.append_nil]
      exact ⟨h.remoteSequence_eq, numbers, hpair, hbound, hall⟩
    · rw [hc.sequence, h.remoteSequence_eq] at hnew
      have hlt := newer_of_relative hold hnew
      simp only [SequencedLink.deliver, hone, hnext, List.isEmpty_cons, Bool.false_eq_true,
        if_false]
      refine ⟨hc.sequence, numbers ++ [number], ?_, ?_, ?_⟩
      · rw [List.pairwise_append]
        refine ⟨hpair, List.pairwise_singleton _ _, fun a ha b hb => ?_⟩
        rw [List.mem_singleton.mp hb]
        exact (hbound a ha).2.trans_lt hlt
      · intro n hn
        rcases List.mem_append.mp hn with hn | hn
        · exact ⟨(hbound n hn).1, (hbound n hn).2.trans hlt.le⟩
        · rw [List.mem_singleton.mp hn]
          exact ⟨hpos, le_rfl⟩
      · exact List.rel_append hall (.cons hc .nil)
  exact { h with
    remoteSequence_eq := hreceived.1
    delivered := hreceived.2 }

theorem processAck_remoteSequence (ch : NetSequencedChannel) (packet : NetPacket) :
    (ch.processAck packet).1.remoteSequence = ch.remoteSequence := by
  rw [NetSequencedChannel.processAck]
  split
  · rfl
  · split <;> rfl

theorem processPacket_remoteSequence (ch : NetSequencedChannel) {packet : NetPacket}
    (hp : packet.property = .ack) :
    (ch.processPacket packet).1.remoteSequence = ch.remoteSequence := by
  rw [NetSequencedChannel.processPacket]
  split
  · rfl
  · exact processAck_remoteSequence ch packet

theorem sendQueued_remoteSequence (ctx : ChannelContext) (queue : List NetPacket)
    (ch : NetSequencedChannel) :
    (NetSequencedChannel.sendQueued ctx queue ch).1.remoteSequence = ch.remoteSequence := by
  induction queue generalizing ch with
  | nil => rfl
  | cons packet queue ih =>
    rw [NetSequencedChannel.sendQueued]
    dsimp only
    split
    · exact ih _
    · exact ih _

theorem sendAndCheckQueue_remoteSequence (ch : NetSequencedChannel) (ctx : ChannelContext) :
    (ch.sendAndCheckQueue ctx).1.remoteSequence = ch.remoteSequence := by
  have hack : ∀ ch' : NetSequencedChannel,
      (ch'.sendAck ctx).1.remoteSequence = ch'.remoteSequence := by
    intro ch'
    rw [NetSequencedChannel.sendAck]
    split
    · rfl
    · split <;> rfl
  have hresend : (ch.resendLast ctx).1.remoteSequence = ch.remoteSequence := by
    rw [NetSequencedChannel.resendLast]
    dsimp only
    split
    · split <;> rfl
    · rfl
  change (ch.sendNextPackets ctx).1.remoteSequence = ch.remoteSequence
  rw [NetSequencedChannel.sendNextPackets]
  dsimp only
  rw [hack]
  split
  · exact hresend
  · exact sendQueued_remoteSequence ctx _ ch

/-- What a received packet leaves of the sending half. -/
structure KeepsSending (ch ch' : NetSequencedChannel) : Prop where
  outgoingQueue : ch'.base.outgoingQueue = ch.base.outgoingQueue
  canEnqueue : ch'.base.canEnqueue = ch.base.canEnqueue
  localSequence : ch'.localSequence = ch.localSequence
  reliable : ch'.reliable = ch.reliable
  ackPacket : ch'.ackPacket = ch.ackPacket
  lastPacket : ch'.lastPacket = ch.lastPacket ∨ ch'.lastPacket = none

theorem processPacket_keepsSending (ch : NetSequencedChannel) (packet : NetPacket) :
    KeepsSending ch (ch.processPacket packet).1 := by
  have hsame : KeepsSending ch ch := ⟨rfl, rfl, rfl, rfl, rfl, .inl rfl⟩
  have hdata : KeepsSending ch (ch.processData packet).1 := by
    rw [NetSequencedChannel.processData]
    split
    · exact ⟨rfl, rfl, rfl, rfl, rfl, .inl rfl⟩
    · exact hsame
  rw [NetSequencedChannel.processPacket]
  split
  · exact hsame
  · split
    · rw [NetSequencedChannel.processAck]
      split
      · exact hsame
      · split
        · exact ⟨rfl, rfl, rfl, rfl, rfl, .inr rfl⟩
        · exact hsame
    · dsimp only
      split
      · exact ⟨(NetBaseChannel.addToPeerChannelSendQueue_outgoingQueue _).trans
          hdata.outgoingQueue, (NetBaseChannel.addToPeerChannelSendQueue_canEnqueue _).trans
          hdata.canEnqueue, hdata.localSequence, hdata.reliable, hdata.ackPacket,
          hdata.lastPacket⟩
      · exact hdata

theorem Numbers.step {l' : SequencedLink} (h : Numbers l) (hs : Step l l') : Numbers l' := by
  cases hs with
  | submit packet hp hs => exact h.submit hp hs
  | send ctx hn => exact h.send hn
  | deliver number bytes hm hold => exact h.deliver hm hold
  | senderReceives packet =>
    have hk := processPacket_keepsSending l.sender packet
    exact { h with
      queue_eq := hk.outgoingQueue.trans h.queue_eq
      canEnqueue := hk.canEnqueue.trans h.canEnqueue
      localSequence_eq := hk.localSequence.trans h.localSequence_eq
      last := by
        intro p hp
        rcases hk.lastPacket with hl | hl
        · exact h.last p (hl ▸ hp)
        · cases hl.symm.trans hp
      unreliable := fun hf =>
        hk.lastPacket.elim (fun hl => hl.trans (h.unreliable (hk.reliable ▸ hf))) id
      ack := fun p hp => h.ack p (hk.ackPacket ▸ hp) }
  | receiverAcked packet hp =>
    exact { h with
      remoteSequence_eq := (processPacket_remoteSequence _ hp).trans h.remoteSequence_eq }
  | receiverQueues packet => exact { h with remoteSequence_eq := h.remoteSequence_eq }
  | receiverSends ctx =>
    exact { h with
      remoteSequence_eq := (sendAndCheckQueue_remoteSequence _ ctx).trans h.remoteSequence_eq }

def Started (reliable : Bool) (id : UInt8) (l : SequencedLink) : Prop :=
  l = SequencedLink.initial reliable id

theorem numbers_of_reachable {reliable : Bool} {id : UInt8}
    (h : Reachable (Started reliable id) Step l) : Numbers l :=
  h.invariant (by rintro l rfl; exact Numbers.initial reliable id) (fun _ _ hl hs => hl.step hs)

/-- Sequenced delivery: the events are for packets of the stream with strictly increasing positions,
over every loss, duplication and reordering within the staleness bound. -/
theorem delivered_increasing {reliable : Bool} {id : UInt8}
    (h : Reachable (Started reliable id) Step l) :
    ∃ positions : List ℕ, positions.Pairwise (· < ·) ∧
      List.Forall₂ (fun i packet => ∃ q, l.given[i]? = some q ∧
        packetContent packet = packetContent q) positions l.delivered := by
  obtain ⟨numbers, hpair, hbound, hall⟩ := (numbers_of_reachable h).delivered
  refine ⟨numbers.map (· - 1), ?_, ?_⟩
  · rw [List.pairwise_map]
    refine hpair.imp_of_mem (fun ha _ hlt => ?_)
    have := (hbound _ ha).1
    omega
  · rw [List.forall₂_map_left_iff]
    clear hpair
    generalize l.delivered = delivered at hall
    induction hall with
    | nil => exact .nil
    | @cons n packet _ _ hc _ ih =>
      obtain ⟨hpos, -⟩ := hbound n List.mem_cons_self
      obtain ⟨i, rfl⟩ := Nat.exists_eq_succ_of_ne_zero (Nat.one_le_iff_ne_zero.mp hpos)
      exact .cons hc.content (ih (fun m hm => hbound m (List.mem_cons_of_mem _ hm)))

def threeSent (reliable : Bool) : SequencedLink :=
  ((((SequencedLink.initial reliable 1).submit (Link.oneByte 1)).submit (Link.oneByte 2)).submit
    (Link.oneByte 3)).send ⟨1, 27, 0⟩

def deliverNumber (l : SequencedLink) (number : ℕ) : SequencedLink :=
  l.deliver number (l.toReceiver.getD (number - 1) (0, [])).2

/-- The first packet arrives after the second one, which arrives twice. -/
def threeReceived (reliable : Bool) : SequencedLink :=
  ((((threeSent reliable).deliverNumber 2).deliverNumber 1).deliverNumber 2).deliverNumber 3

private theorem threeReceived_reachable (reliable : Bool) :
    Reachable (Started reliable 1) Step (threeReceived reliable) := by
  have hinitial : Reachable (Started reliable 1) Step (SequencedLink.initial reliable 1) :=
    .initial rfl
  have hsubmitted := ((hinitial.tail (.submit _ (Link.oneByte 1) (by decide) (by decide))).tail
    (.submit _ (Link.oneByte 2) (by decide) (by decide))).tail
      (.submit _ (Link.oneByte 3) (by decide) (by decide))
  have hsent : Reachable (Started reliable 1) Step (threeSent reliable) :=
    hsubmitted.tail (.send _ ⟨1, 27, 0⟩ (by decide))
  refine (((hsent.tail (.deliver _ 2 _ ?_ ?_)).tail (.deliver _ 1 _ ?_ ?_)).tail
    (.deliver _ 2 _ ?_ ?_)).tail (.deliver _ 3 _ ?_ ?_)
  all_goals cases reliable <;> decide +kernel

theorem delivered_increasing_threeReceived :
    (threeReceived true).delivered.map (·.byte 4) = [2, 3] ∧
    ∃ positions : List ℕ, positions.Pairwise (· < ·) ∧
      List.Forall₂ (fun i packet => ∃ q, (threeReceived true).given[i]? = some q ∧
        packetContent packet = packetContent q) positions (threeReceived true).delivered :=
  ⟨by decide +kernel, delivered_increasing (threeReceived_reachable true)⟩

end SequencedLink

end LiteNet.Channels
