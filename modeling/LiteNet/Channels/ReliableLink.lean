import LiteNet.Channels.ReliableSender

/-! # Two reliable channels and the network between them

The network keeps every datagram for ever and hands any of them over at any time, so
it drops, duplicates and reorders them. A datagram is tagged with its true number: a data
packet with the position of its packet in the stream, an acknowledgement with the
first number of the window it reports.
-/

namespace LiteNet.Channels
open Library Wire Relation

/-- The packets a channel hands to `net_peer::send_user_data`. -/
def userData (calls : List PeerCall) : List NetPacket :=
  calls.filterMap fun
    | .sendUserData packet => some packet
    | _ => none

theorem mem_userData {calls : List PeerCall} {p : NetPacket} :
    p ∈ userData calls ↔ .sendUserData p ∈ calls := by
  constructor
  · intro h
    obtain ⟨c, hc, hp⟩ := List.mem_filterMap.mp h
    cases c with
    | sendUserData q =>
      obtain rfl : q = p := by simpa using hp
      exact hc
    | _ => simp at hp
  · exact fun h => List.mem_filterMap.mpr ⟨_, h, rfl⟩

structure Link where
  sender : NetReliableChannel
  receiver : NetReliableChannel
  /-- data packets sent so far, with their true numbers -/
  toReceiver : List (ℕ × Bytes)
  /-- acknowledgements sent so far, with the true starts of their windows -/
  toSender : List (ℕ × Bytes)
  /-- packets given to the sender's `add_to_queue` -/
  given : List NetPacket
  /-- packets the receiver passed to `add_reliable_packet` -/
  delivered : List NetPacket
  /-- `m_local_window_start` of the sender, not wrapped -/
  sentBase : ℕ
  /-- `m_remote_window_start` of the receiver, not wrapped -/
  recvBase : ℕ
  /-- `m_remote_sequence` of the receiver, not wrapped -/
  recvNext : ℕ

namespace Link

def initial (ordered : Bool) (id : UInt8) : Link where
  sender := .new ordered id
  receiver := .new ordered id
  toReceiver := []
  toSender := []
  given := []
  delivered := []
  sentBase := 0
  recvBase := 0
  recvNext := 0

/-- How many packets the sender has put into its window so far. -/
def numbered (l : Link) : ℕ := l.given.length - l.sender.base.outgoingQueue.length

def submit (l : Link) (packet : NetPacket) : Link :=
  { l with
    sender := (l.sender.addToQueue packet).1
    given := l.given ++ [packet] }

def send (l : Link) (ctx : ChannelContext) : Link :=
  let sent := l.sender.sendAndCheckQueue ctx
  { l with
    sender := sent.1
    toReceiver := l.toReceiver ++ (userData sent.2.1).map fun packet =>
      (unwrap maxSequence l.sentBase l.sender.localWindowStart packet.sequence, packet.wire) }

def report (l : Link) (ctx : ChannelContext) : Link :=
  let sent := l.receiver.sendAndCheckQueue ctx
  { l with
    receiver := sent.1
    toSender := l.toSender ++ (userData sent.2.1).map fun packet => (l.recvBase, packet.wire) }

def deliverData (l : Link) (bytes : Bytes) : Link :=
  let processed := l.receiver.processPacket (.received bytes)
  { l with
    receiver := processed.1
    delivered := l.delivered ++ reliablePackets processed.2.1
    recvBase := unwrap maxSequence l.recvBase l.receiver.remoteWindowStart
      processed.1.remoteWindowStart
    recvNext := unwrap maxSequence l.recvNext l.receiver.remoteSequence
      processed.1.remoteSequence }

def deliverAck (l : Link) (bytes : Bytes) : Link :=
  let processed := l.sender.processPacket (.received bytes)
  { l with
    sender := processed.1
    sentBase := unwrap maxSequence l.sentBase l.sender.localWindowStart
      processed.1.localWindowStart }

/-- One action of either channel or of the network. Packets are what `net_peer::send_internal`
builds for a channel, and the number of a connected peer is below `MAX_CONNECTION_NUMBER`. -/
inductive Step : Link → Link → Prop
  | submit (l : Link) (packet : NetPacket) (hp : packet.property = .channeled)
      (hs : channeledHeaderSize ≤ packet.size) : Step l (l.submit packet)
  | send (l : Link) (ctx : ChannelContext) (hn : ctx.connectNumber.toNat < maxConnectionNumber) :
      Step l (l.send ctx)
  | report (l : Link) (ctx : ChannelContext) : Step l (l.report ctx)
  | deliverData (l : Link) (i : ℕ) (bytes : Bytes) (hm : (i, bytes) ∈ l.toReceiver)
      (hold : l.recvNext ≤ i + 16384) : Step l (l.deliverData bytes)
  | deliverAck (l : Link) (start : ℕ) (bytes : Bytes) (hm : (start, bytes) ∈ l.toSender)
      (hold : l.sentBase ≤ start + 16383) : Step l (l.deliverAck bytes)

abbrev Abstract : Type := SelectiveRepeat.State NetPacket

abbrev AbstractStep : Abstract → Abstract → Prop := SelectiveRepeat.Step windowSize

/-- What the receiver has passed on: the stream up to the next expected number when it is
ordered, else the accepted packets in the order of their acceptance. -/
def Delivered (ordered : Bool) (s : Abstract) (delivered : List NetPacket) : Prop :=
  if ordered then List.Forall₂ (Carries s.given) (List.range s.expected) delivered
  else List.Forall₂ (Carries s.given) s.order delivered

/-- The two channels and the network represent a state of selective repeat. -/
structure Represents (ordered : Bool) (l : Link) (s : Abstract) : Prop where
  ordered_eq : l.receiver.ordered = ordered
  sends : l.sender.Sends l.sender.base.outgoingQueue s
  idle : l.sender.mustSendAcks = false
  canEnqueue : l.sender.base.canEnqueue = true
  receives : l.receiver.Receives (Carries s.given) s
  quiet : l.receiver.base.outgoingQueue = []
  quiet_window : l.receiver.localWindowStart = l.receiver.localSequence
  given_eq : l.given = s.given
  sentBase_eq : l.sentBase = s.base
  recvBase_eq : l.recvBase = s.windowStart
  recvNext_eq : l.recvNext = s.expected
  data : ∀ m ∈ l.toReceiver, m.1 < s.next ∧ Carries s.given m.1 (.received m.2)
  acks : ∀ m ∈ l.toSender, (NetPacket.received m.2).property = .ack ∧
    Acknowledges s m.1 (.received m.2)
  delivered : Delivered ordered s l.delivered

section Simulation

variable {ordered : Bool} {l : Link} {s : Abstract}

theorem Delivered.mono {s' : Abstract} {packets : List NetPacket} (h : Delivered ordered s packets)
    (hc : ∀ i p, Carries s.given i p → Carries s'.given i p) (he : s'.expected = s.expected)
    (ho : s'.order = s.order) : Delivered ordered s' packets := by
  unfold Delivered at *
  rw [he, ho]
  cases ordered with
  | true => exact h.imp hc
  | false => exact h.imp hc

private theorem outgoingAcks_new (ordered : Bool) (id : UInt8) :
    Reports (NetReliableChannel.new ordered id).outgoingAcks 0 ∅ ∧
      (NetReliableChannel.new ordered id).outgoingAcks.sequence = 0 := by
  have hbyte : ∀ j, 3 < j → (NetReliableChannel.new ordered id).outgoingAcks.byte j = 0 := by
    intro j hj
    change ((NetPacket.new .ack ((windowSize - 1) / bitsInByte + 2) _).setChannelId id).byte j = 0
    rw [NetPacket.setChannelId, NetPacket.byte_setByte_of_ne _ _ (by omega), NetPacket.new,
      NetPacket.setProperty, NetPacket.byte_setByte_of_ne _ _ (by omega), NetPacket.byte_alloc]
  refine ⟨⟨rfl, ?_, fun i _ _ => ?_⟩, ?_⟩
  · simp [NetReliableChannel.new, NetPacket.new]
  · rw [marks_iff, ackBits, testAckBit, hbyte _ (three_lt_ackByte _)]
    simp
  · simp only [NetReliableChannel.new, NetPacket.sequence_setChannelId, NetPacket.new,
      NetPacket.sequence_setProperty]
    decide

theorem Represents.initial (ordered : Bool) (id : UInt8) :
    Represents ordered (Link.initial ordered id) SelectiveRepeat.initial where
  ordered_eq := rfl
  sends := ⟨rfl, rfl, rfl, fun _ _ _ h => absurd h (Nat.not_lt_zero _), by
    simp [SelectiveRepeat.initial]⟩
  idle := rfl
  canEnqueue := rfl
  receives := by
    obtain ⟨hr, hs⟩ := outgoingAcks_new ordered id
    refine ⟨rfl, hs, hr, rfl, fun _ i _ _ => ?_, fun _ i _ _ => ?_⟩
    · exact Set.notMem_empty i
    · exact Set.notMem_empty i
  quiet := rfl
  quiet_window := rfl
  given_eq := rfl
  sentBase_eq := rfl
  recvBase_eq := rfl
  recvNext_eq := rfl
  data := by simp [Link.initial]
  acks := by simp [Link.initial]
  delivered := by
    unfold Delivered
    split <;> exact .nil

theorem Represents.submit (h : Represents ordered l s) (hinv : SelectiveRepeat.Inv windowSize s)
    {packet : NetPacket} (hp : packet.property = .channeled)
    (hs : channeledHeaderSize ≤ packet.size) :
    Represents ordered (l.submit packet) (s.submitted packet) where
  ordered_eq := h.ordered_eq
  sends := h.sends.submit hinv.next_le hp hs (NetReliableChannel.addToQueue_outgoingQueue _ _
    h.canEnqueue)
  idle := h.idle
  canEnqueue := (NetReliableChannel.addToQueue_canEnqueue _ _).trans h.canEnqueue
  receives := h.receives.mono (fun _ _ hc => hc.append packet) (.refl _) rfl rfl rfl
  quiet := h.quiet
  quiet_window := h.quiet_window
  given_eq := congrArg (· ++ [packet]) h.given_eq
  sentBase_eq := h.sentBase_eq
  recvBase_eq := h.recvBase_eq
  recvNext_eq := h.recvNext_eq
  data := fun m hm => ⟨(h.data m hm).1, (h.data m hm).2.append packet⟩
  acks := fun m hm => ⟨(h.acks m hm).1, (h.acks m hm).2.sequence, (h.acks m hm).2.snapshot⟩
  delivered := h.delivered.mono (fun _ _ hc => hc.append packet) rfl rfl

theorem Represents.send (h : Represents ordered l s) (hinv : SelectiveRepeat.Inv windowSize s)
    {ctx : ChannelContext} (hn : ctx.connectNumber.toNat < maxConnectionNumber) :
    ∃ s', ReflTransGen AbstractStep s s' ∧ Represents ordered (l.send ctx) s' := by
  obtain ⟨next', hle, hrun, hs, hr, hcalls⟩ :=
    NetReliableChannel.sendAndCheckQueue_spec h.sends hinv h.idle hn rfl
  have hinv' : SelectiveRepeat.Inv windowSize { s with next := next' } :=
    preserved_of_run (fun _ _ hi hs => hi.step hs) hinv hrun
  have hnext : next' ≤ s.base + windowSize := hinv'.next_lt
  refine ⟨_, hrun, { h with
    sends := hs
    idle := hr.mustSendAcks.trans h.idle
    canEnqueue := (NetReliableChannel.sendAndCheckQueue_canEnqueue _ _).trans h.canEnqueue
    receives := h.receives.mono (fun _ _ hc => hc) (.refl _) rfl rfl rfl
    data := fun m hm => ?_
    acks := fun m hm => ⟨(h.acks m hm).1, (h.acks m hm).2.sequence, (h.acks m hm).2.snapshot⟩ }⟩
  rcases List.mem_append.mp hm with hm | hm
  · exact ⟨(h.data m hm).1.trans_le hle, (h.data m hm).2⟩
  · obtain ⟨p, hp, rfl⟩ := List.mem_map.mp hm
    obtain ⟨i, q, hq, hi, hi', hc⟩ := hcalls _ (mem_userData.mp hp)
    obtain rfl : p = q := by simpa using hq
    have hnumber : unwrap maxSequence l.sentBase l.sender.localWindowStart p.sequence = i := by
      have hwin : windowSize < maxSequence := by decide
      rw [h.sentBase_eq, h.sends.localWindowStart, hc.sequence, unwrap_wrapped hi (by omega)]
    rw [hnumber]
    exact ⟨hi', hc.received⟩

theorem Represents.report (h : Represents ordered l s) (ctx : ChannelContext) :
    Represents ordered (l.report ctx) s.reported := by
  obtain ⟨flag, hch, hcalls⟩ := NetReliableChannel.sendAndCheckQueue_quiet l.receiver ctx h.quiet
    h.quiet_window
  obtain ⟨hrec, hsent⟩ := NetReliableChannel.sendAcks_spec h.receives ctx
  obtain ⟨-, hordered, hseq, hstart⟩ := NetReliableChannel.sendAcks_base l.receiver ctx
  have hreceiver : (l.report ctx).receiver = { (l.receiver.sendAcks ctx).1 with
      base := { l.receiver.base with isAddedToPeerChannelSendQueue := flag } } := hch
  exact { h with
    ordered_eq := by rw [hreceiver, ← h.ordered_eq, ← hordered]
    sends := ⟨h.sends.localSequence, h.sends.localWindowStart, h.sends.queue_eq, h.sends.pending,
      h.sends.given_channeled⟩
    receives := by
      rw [hreceiver]
      refine hrec.mono (fun _ _ hc => hc) ?_ rfl rfl rfl
      constructor <;> rfl
    quiet := by
      rw [hreceiver]
      exact h.quiet
    quiet_window := by
      rw [hreceiver]
      exact hstart.trans (h.quiet_window.trans hseq.symm)
    acks := by
      intro m hm
      rcases List.mem_append.mp hm with hm | hm
      · obtain ⟨r, hr, hrep⟩ := (h.acks m hm).2.snapshot
        exact ⟨(h.acks m hm).1, (h.acks m hm).2.sequence, r, Set.mem_insert_of_mem _ hr, hrep⟩
      · obtain ⟨p, hp, rfl⟩ := List.mem_map.mp hm
        rw [hcalls] at hp
        obtain ⟨q, hq, hqs, hrep⟩ := hsent _ (mem_userData.mp hp)
        obtain rfl : p = q := by simpa using hq
        have hsize : 3 ≤ p.size := by
          rw [hrep.size]
          decide
        rw [h.recvBase_eq]
        refine ⟨hrep.received.property, ?_, _, Set.mem_insert _ _, rfl, hrep.received⟩
        rw [NetPacket.sequence_received p hsize, hqs]
    delivered := h.delivered.mono (fun _ _ hc => hc) rfl rfl }

theorem Represents.deliverAck (h : Represents ordered l s) (hinv : SelectiveRepeat.Inv windowSize s)
    {start : ℕ} {bytes : Bytes} (hm : (start, bytes) ∈ l.toSender)
    (hold : l.sentBase ≤ start + 16383) :
    ∃ s', ReflTransGen AbstractStep s s' ∧ Represents ordered (l.deliverAck bytes) s' := by
  obtain ⟨hprop, hack⟩ := h.acks _ hm
  have hold' : s.base < start + halfMaxSequence := by
    rw [← h.sentBase_eq]
    exact Nat.lt_succ_of_le hold
  obtain ⟨s', hrun, hs, base', acked', rfl⟩ :=
    NetReliableChannel.processAck_spec h.sends hinv hack hold' rfl
  obtain ⟨hframe, hbase⟩ := NetReliableChannel.processAck_frame l.sender (.received bytes)
  have hsender : (l.deliverAck bytes).sender = (l.sender.processAck (.received bytes)).1 := by
    simp [Link.deliverAck, NetReliableChannel.processPacket, hprop]
  have hinv' : SelectiveRepeat.Inv windowSize { s with base := base', acked := acked' } :=
    preserved_of_run (fun _ _ hi hs => hi.step hs) hinv hrun
  refine ⟨_, hrun, { h with
    sends := ?_
    idle := ?_
    canEnqueue := ?_
    receives := h.receives.mono (fun _ _ hc => hc) (.refl _) rfl rfl rfl
    sentBase_eq := ?_
    acks := fun m hm => ⟨(h.acks m hm).1, (h.acks m hm).2.sequence, (h.acks m hm).2.snapshot⟩ }⟩
  · rw [hsender, hbase]
    exact hs
  · rw [hsender]
    exact hframe.mustSendAcks.trans h.idle
  · rw [hsender, hbase]
    exact h.canEnqueue
  · have hle : s.base ≤ base' := SelectiveRepeat.base_le_of_run hrun
    have hlt : base' < s.base + maxSequence := by
      have hwin : windowSize < maxSequence := by decide
      have hnext := hinv.next_lt
      have hbase : base' ≤ s.next := hinv'.base_le
      omega
    have hstart : (l.deliverAck bytes).sender.localWindowStart = base' % maxSequence := by
      rw [hsender]
      exact hs.localWindowStart
    change unwrap maxSequence l.sentBase l.sender.localWindowStart
      (l.deliverAck bytes).sender.localWindowStart = base'
    rw [hstart, h.sentBase_eq, h.sends.localWindowStart, unwrap_wrapped hle hlt]

/-- Accepting number `i` extends what has been delivered. -/
private theorem Delivered.accept {packets more : List NetPacket} {i e : ℕ}
    {packet : NetPacket} (h : Delivered ordered s packets) (hc : Carries s.given i packet)
    (he : s.expected ≤ e)
    (hh : NetReliableChannel.HandsOn ordered (Carries s.given) s.expected e packet more) :
    Delivered ordered (s.accepted windowSize i e) (packets ++ more) := by
  unfold Delivered NetReliableChannel.HandsOn at *
  cases ordered with
  | true =>
    have hrange : List.range e = List.range s.expected ++
        List.range' s.expected (e - s.expected) := by
      have hjoin := List.range'_append_1 (s := 0) (m := s.expected) (n := e - s.expected)
      rw [Nat.zero_add, Nat.add_sub_cancel' he] at hjoin
      rw [List.range_eq_range', List.range_eq_range', hjoin]
    rw [if_pos rfl] at *
    change List.Forall₂ (Carries s.given) (List.range e) _
    rw [hrange]
    exact List.rel_append h hh
  | false =>
    rw [if_neg Bool.false_ne_true] at *
    subst hh
    exact List.rel_append h (.cons hc .nil)

/-- The part of a delivery that does not depend on whether the packet is accepted. -/
private theorem Represents.received (h : Represents ordered l s) {bytes : Bytes} {start e : ℕ}
    {got : Set ℕ} {order : List ℕ} (hprop : (NetPacket.received bytes).property ≠ .ack)
    (hw : s.windowStart ≤ start) (hw' : start < s.windowStart + maxSequence)
    (he : s.expected ≤ e) (he' : e < s.expected + maxSequence)
    (hr : (l.receiver.processPacket (.received bytes)).1.Receives (Carries s.given)
      { s with windowStart := start, got := got, order := order, expected := e })
    (hd : Delivered ordered
      { s with windowStart := start, got := got, order := order, expected := e }
      (l.delivered ++ reliablePackets (l.receiver.processPacket (.received bytes)).2.1)) :
    Represents ordered (l.deliverData bytes)
      { s with windowStart := start, got := got, order := order, expected := e } := by
  obtain ⟨hordered, -, hlocal, hstart, -, hqueue, -⟩ :=
    NetReliableChannel.processPacket_sameSender l.receiver hprop
  exact { h with
    ordered_eq := hordered.trans h.ordered_eq
    sends := ⟨h.sends.localSequence, h.sends.localWindowStart, h.sends.queue_eq, h.sends.pending,
      h.sends.given_channeled⟩
    receives := hr
    quiet := hqueue.trans h.quiet
    quiet_window := hstart.trans (h.quiet_window.trans hlocal.symm)
    recvBase_eq := by
      change unwrap maxSequence l.recvBase l.receiver.remoteWindowStart _ = _
      rw [h.recvBase_eq, h.receives.remoteWindowStart, hr.remoteWindowStart,
        unwrap_wrapped hw hw']
    recvNext_eq := by
      change unwrap maxSequence l.recvNext l.receiver.remoteSequence _ = _
      rw [h.recvNext_eq, h.receives.stores.remoteSequence, hr.stores.remoteSequence,
        unwrap_wrapped he he']
    acks := fun m hm => ⟨(h.acks m hm).1, (h.acks m hm).2.sequence, (h.acks m hm).2.snapshot⟩
    delivered := hd }

theorem Represents.deliverData (h : Represents ordered l s) (hinv : SelectiveRepeat.Inv windowSize s)
    {i : ℕ} {bytes : Bytes} (hm : (i, bytes) ∈ l.toReceiver) (hold : l.recvNext ≤ i + 16384) :
    ∃ s', ReflTransGen AbstractStep s s' ∧ Represents ordered (l.deliverData bytes) s' := by
  obtain ⟨hi, hc⟩ := h.data _ hm
  have hprop : (NetPacket.received bytes).property ≠ .ack := by
    rw [hc.property]
    decide
  have hold' : s.expected ≤ i + halfMaxSequence := h.recvNext_eq ▸ hold
  have hwin : 2 * windowSize < maxSequence := by decide
  rcases NetReliableChannel.processPacket_data h.receives hinv hi hprop hc.sequence hc hold' with
    ⟨hr, hd⟩ | ⟨hlow, hni, e, hin, hout, hr, hh⟩
  · refine ⟨s, .refl, h.received hprop le_rfl (by omega) le_rfl (by omega) hr ?_⟩
    rw [hd, List.append_nil]
    exact h.delivered
  · have hstep : AbstractStep s (s.accepted windowSize i e) := .accept s i e hi hlow hni hin hout
    have hinv' := hinv.step hstep
    have hle : s.expected ≤ e := by
      by_contra hlt
      exact hout (Set.mem_insert_of_mem _ (hinv.expected_got e (by omega)))
    have hstart : max s.windowStart (i + 1 - windowSize) ≤ s.base := hinv'.windowStart_le_base
    have hnext : e ≤ s.next := hinv'.expected_le_next
    have hnext' := hinv.next_le_expected
    have hbase := hinv.base_le_expected
    have hexp := hinv.expected_le
    exact ⟨_, .single hstep, h.received hprop (le_max_left _ _) (by omega) hle (by omega) hr
      (h.delivered.accept hc hle (h.ordered_eq ▸ hh))⟩

/-- Every step of the link is matched by a run of selective repeat. -/
theorem Represents.step {l' : Link} (h : Represents ordered l s)
    (hinv : SelectiveRepeat.Inv windowSize s) (hs : Link.Step l l') :
    ∃ s', ReflTransGen AbstractStep s s' ∧ Represents ordered l' s' := by
  cases hs with
  | submit packet hp hs => exact ⟨_, .single (.submit s packet), h.submit hinv hp hs⟩
  | send ctx hn => exact h.send hinv hn
  | report ctx => exact ⟨_, .single (.report s), h.report ctx⟩
  | deliverData i bytes hm hold => exact h.deliverData hinv hm hold
  | deliverAck start bytes hm hold => exact h.deliverAck hinv hm hold

end Simulation

def Started (ordered : Bool) (id : UInt8) (l : Link) : Prop := l = Link.initial ordered id

/-- The channels and the network refine selective repeat. -/
theorem simulates {ordered : Bool} {id : UInt8} {l : Link}
    (h : Reachable (Started ordered id) Link.Step l) :
    ∃ s, Reachable (fun t => t = (SelectiveRepeat.initial : Abstract)) AbstractStep s ∧
      Represents ordered l s := by
  refine h.simulates ?_ ?_
  · rintro l rfl
    exact ⟨_, rfl, Represents.initial ordered id⟩
  · intro l l' s hs hr hstep
    exact hr.step (SelectiveRepeat.inv_of_reachable hs) hstep

/-- Passing on the stream in order is passing on a prefix of it. -/
private theorem prefix_of_forall₂ {given packets : List NetPacket} {n : ℕ}
    (h : List.Forall₂ (Carries given) (List.range n) packets) :
    packets.map packetContent <+: given.map packetContent := by
  have hlen := h.length_eq
  rw [List.length_range] at hlen
  rw [List.prefix_iff_eq_take, List.length_map]
  apply List.ext_getElem?
  intro i
  rw [List.getElem?_take, List.getElem?_map, List.getElem?_map]
  by_cases hi : i < packets.length
  · have hc := h.get (i := i) (by simpa [hlen] using hi) hi
    obtain ⟨q, hq, he⟩ := hc.content
    rw [if_pos hi, List.getElem?_eq_getElem hi]
    simp only [List.get_eq_getElem, List.getElem_range] at hq he
    simp [hq, he]
  · rw [if_neg hi, List.getElem?_eq_none (by omega)]
    rfl

/-- Reliable ordered delivery: what the receiver passes on is a prefix of what the sender was
given, over every loss, duplication and reordering within the staleness bounds. -/
theorem delivered_prefix {id : UInt8} {l : Link}
    (h : Reachable (Started true id) Link.Step l) :
    l.delivered.map packetContent <+: l.given.map packetContent := by
  obtain ⟨s, -, hr⟩ := simulates h
  have hd : List.Forall₂ (Carries s.given) (List.range s.expected) l.delivered := hr.delivered
  rw [hr.given_eq]
  exact prefix_of_forall₂ hd

/-- A packet of a channel with one byte of data. -/
def oneByte (value : UInt8) : NetPacket :=
  (NetPacket.new .channeled 1 NetPacket.three_le_channeled).setByte 4 value

/-- Two packets that were sent. -/
def twoSent (ordered : Bool) : Link :=
  (((Link.initial ordered 2).submit (oneByte 1)).submit (oneByte 2)).send ⟨1, 27, 0⟩

/-- The second one arrives first and once more after the first. -/
def twoReceived (ordered : Bool) : Link :=
  (((twoSent ordered).deliverData ((twoSent ordered).toReceiver.getD 1 (0, [])).2).deliverData
    ((twoSent ordered).toReceiver.getD 0 (0, [])).2).deliverData
      ((twoSent ordered).toReceiver.getD 1 (0, [])).2

def twoReported (ordered : Bool) : Link := (twoReceived ordered).report ⟨1, 27, 0⟩

/-- The sender learns of both. -/
def twoAcknowledged (ordered : Bool) : Link :=
  (twoReported ordered).deliverAck ((twoReported ordered).toSender.getD 0 (0, [])).2

private theorem twoReceived_reachable (ordered : Bool) :
    Reachable (Started ordered 2) Link.Step (twoReceived ordered) := by
  have hinitial : Reachable (Started ordered 2) Link.Step (Link.initial ordered 2) := .initial rfl
  have hsubmitted := (hinitial.tail (.submit _ (oneByte 1) (by decide) (by decide))).tail
    (.submit _ (oneByte 2) (by decide) (by decide))
  have hsent : Reachable (Started ordered 2) Link.Step (twoSent ordered) :=
    hsubmitted.tail (.send _ ⟨1, 27, 0⟩ (by decide))
  refine ((hsent.tail (.deliverData _ 1 _ ?_ ?_)).tail (.deliverData _ 0 _ ?_ ?_)).tail
    (.deliverData _ 1 _ ?_ ?_)
  all_goals cases ordered <;> decide +kernel

private theorem twoAcknowledged_reachable (ordered : Bool) :
    Reachable (Started ordered 2) Link.Step (twoAcknowledged ordered) := by
  refine ((twoReceived_reachable ordered).tail (.report _ ⟨1, 27, 0⟩)).tail
    (.deliverAck _ 0 _ ?_ ?_)
  all_goals cases ordered <;> decide +kernel

theorem delivered_prefix_twoReceived : (twoReceived true).delivered.length = 2 ∧
    (twoReceived true).delivered.map packetContent <+: (twoReceived true).given.map packetContent :=
  ⟨by decide +kernel, delivered_prefix (twoReceived_reachable true)⟩

/-- Reliable unordered delivery: each given packet is passed on at most once and nothing else is,
and a packet leaves its slot or the send window only after it has been passed on. -/
theorem unordered_delivered_once {id : UInt8} {l : Link}
    (h : Reachable (Started false id) Link.Step l) :
    ∃ order : List ℕ, order.Nodup ∧
      List.Forall₂ (fun i packet => ∃ q, l.given[i]? = some q ∧
        packetContent packet = packetContent q) order l.delivered ∧
      ∀ i < l.numbered,
        (i < l.sentBase ∨ (l.sender.pendingPackets (ringSlot i)).packet = none) → i ∈ order := by
  obtain ⟨s, hs, hr⟩ := simulates h
  have hinv := SelectiveRepeat.inv_of_reachable hs
  have hd : List.Forall₂ (Carries s.given) s.order l.delivered := hr.delivered
  refine ⟨s.order, hinv.order_nodup, ?_, fun i hi hout => ?_⟩
  · rw [hr.given_eq]
    exact hd.imp fun _ _ hc => hc.content
  · apply SelectiveRepeat.released_delivered hs
    rw [hr.sentBase_eq] at hout
    rcases Nat.lt_or_ge i s.base with hlt | hge
    · exact .inl hlt
    · right
      have hnext : i < s.next := by
        have hq := congrArg List.length hr.sends.queue_eq
        rw [numbered, hr.given_eq, hq, List.length_drop] at hi
        have := hinv.next_le
        omega
      have hnone := hout.resolve_left (by omega)
      have hpend := hr.sends.pending i hge (by have := hinv.next_lt; omega) hnext
      rw [hnone] at hpend
      exact hpend

theorem unordered_delivered_once_twoAcknowledged :
    (twoAcknowledged false).delivered.length = 2 ∧ (twoAcknowledged false).sentBase = 2 ∧
    ∃ order : List ℕ, order.Nodup ∧
      List.Forall₂ (fun i packet => ∃ q, (twoAcknowledged false).given[i]? = some q ∧
        packetContent packet = packetContent q) order (twoAcknowledged false).delivered ∧
      ∀ i < (twoAcknowledged false).numbered, (i < (twoAcknowledged false).sentBase ∨
        ((twoAcknowledged false).sender.pendingPackets (ringSlot i)).packet = none) → i ∈ order :=
  ⟨by decide +kernel, by decide +kernel,
    unordered_delivered_once (twoAcknowledged_reachable false)⟩

end Link

end LiteNet.Channels
