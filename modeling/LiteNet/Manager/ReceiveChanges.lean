import LiteNet.Manager.SendChanges

/-! # Processing a packet as a sequence of changes

What a session reports goes to the peer that the registry knows under its address.
Nothing ends a session between the check of its state and the reports that follow,
so the reports of a connected peer are made while it is connected.
-/

namespace LiteNet.Manager
open Library Wire Channels Relation

/-- A scope in which only the insides of sessions change. -/
def Scope.quiet : Scope :=
  ⟨fun _ _ => False, fun _ _ => False, True, False, False, fun _ => False, fun _ => False, False,
    fun _ => True⟩

/-- The registry finds `r` under its address, and `r` may report data. -/
structure Ready (S : Scope) (m : NetManager) (r : PeerRef) : Prop where
  lt : r < m.peerCount
  found : m.tryGetPeer (m.peerAt r).endpoint = some r
  state : (m.peerAt r).connectionState = .connected ∨ S.early

section Ready

variable {S : Scope} {m m' : NetManager} {r : PeerRef}

theorem Ready.toQuiet (h : Ready S m r) : Ready .quiet m r := ⟨h.lt, h.found, .inr trivial⟩

theorem Changes.found (hc : Changes S m m') (hS : ¬ S.registers) (hr : r < m.peerCount)
    (h : m.tryGetPeer (m.peerAt r).endpoint = some r) :
    m'.tryGetPeer (m'.peerAt r).endpoint = some r := by
  have hp := (hc.evolves.fixed hS).2
  rw [NetManager.tryGetPeer, hp, (hc.evolves.peer r hr).endpoint]
  exact h

theorem Changes.quiet_state (hc : Changes .quiet m m') (hr : r < m.peerCount) :
    (m'.peerAt r).connectionState = (m.peerAt r).connectionState :=
  (hc.evolves.peer r hr).steady id (fun _ _ => id)

theorem Ready.changes (h : Ready S m r) (hc : Changes .quiet m m') : Ready S m' r where
  lt := h.lt.trans_le hc.evolves.count
  found := hc.found id h.lt h.found
  state := by
    rw [hc.quiet_state h.lt]
    exact h.state

end Ready

namespace NetManager

section Reports

variable {S : Scope} {m : NetManager} {r : PeerRef}

theorem report_changes (h : Ready S m r) {args : NetEvent} (hp : args.peer = some r)
    (ht : args.type = .receive ∨ args.type = .connectionLatencyUpdated)
    (plain : args.made.Filled) : Changes S m (m.createEvent args) :=
  .single (.report r _ (args.made_peer.trans hp) (args.made_type.symm ▸ ht) h.state ⟨_, h.found⟩
    plain)

theorem createReceiveEvent_changes (h : Ready S m r) (packet : NetPacket)
    (method : DeliveryMethod) (channelNumber : UInt8) (headerSize : ℕ) {endpoint : NetAddress}
    (he : endpoint = (m.peerAt r).endpoint) :
    Changes S m (m.createReceiveEvent packet method channelNumber headerSize endpoint) :=
  have found : m.tryGetPeer endpoint = some r := he ▸ h.found
  report_changes h found (.inl rfl) ⟨rfl, Option.isSome_of_eq_some found, rfl⟩

theorem connectionLatencyUpdated_changes (h : Ready S m r) (latency : ℤ) {address : NetAddress}
    (he : address = (m.peerAt r).endpoint) :
    Changes S m (m.connectionLatencyUpdated address latency) := by
  rw [connectionLatencyUpdated, he, h.found]
  exact report_changes h rfl (.inr rfl) ⟨rfl, rfl⟩

theorem messageDelivered_changes (S : Scope) (m : NetManager) (address : NetAddress) :
    Changes S m (m.messageDelivered address) := by
  rw [messageDelivered]
  split
  · exact .refl
  · refine Changes.createEvent (fun r h => ?_) ⟨rfl, rfl⟩
    obtain ⟨-, ht | ht | ht | ht⟩ := h <;> cases ht

theorem messageDelivered_peerAt (m : NetManager) (address : NetAddress) :
    (m.messageDelivered address).peerAt = m.peerAt := by
  rw [messageDelivered]
  split <;> rfl

/-- The counts of a well-formed peer are empty, so one that is changed was not well formed. -/
theorem touch_delivered (S : Scope) {m : NetManager} {r : PeerRef} {fragmentId count : ℕ}
    (h : (m.peerAt r).deliveredFragments fragmentId = some count) (delivered : ℕ → Option ℕ) :
    Change S m (m.setPeer r { m.peerAt r with deliveredFragments := delivered }) := by
  refine .touch r ⟨rfl, rfl, rfl, rfl, fun hw => ?_⟩ rfl rfl (fun _ _ => rfl)
  have hnone : (m.peerAt r).deliveredFragments fragmentId = none := hw.delivered fragmentId
  rw [hnone] at h
  cases h

theorem recycleAndDeliver_changes (S : Scope) (m : NetManager) (r : PeerRef)
    (packet : NetPacket) : Changes S m (m.recycleAndDeliver r packet) := by
  have hfragment : Changes S m (m.fragmentDelivered r packet) := by
    rw [fragmentDelivered]
    split
    · exact .refl
    · next count hcount =>
      dsimp only
      split
      · have hcount' : ((m.messageDelivered (m.peerAt r).endpoint).peerAt r).deliveredFragments
            packet.fragmentId = some count := by
          rw [messageDelivered_peerAt]
          exact hcount
        exact (m.messageDelivered_changes S _).tail (touch_delivered S hcount' _)
      · exact .single (touch_delivered S hcount _)
  rw [recycleAndDeliver]
  split
  · exact (m.poolRecycle_aside packet).changes
  · refine ReflTransGen.trans ?_ (poolRecycle_aside _ _).changes
    split
    · exact hfragment
    · exact m.messageDelivered_changes S _

theorem clearFragments_aside (m : NetManager) (fragments : List (Option NetPacket)) :
    Aside m (m.clearFragments fragments) := by
  rw [clearFragments]
  induction fragments generalizing m with
  | nil => exact .refl m
  | cons fragment fragments ih => exact (m.poolRecycleOption_aside fragment).trans (ih _)

theorem assemble_aside (fragments : List (Option NetPacket)) (pos : ℕ) (result : NetPacket)
    (m : NetManager) : Aside m (assemble fragments pos result m).1 := by
  induction fragments generalizing pos result m with
  | nil => exact .refl m
  | cons fragment fragments ih =>
    cases fragment with
    | none => exact ih pos result m
    | some fragment =>
      rw [assemble]
      split
      · exact m.clearFragments_aside _
      · exact (m.poolRecycle_aside fragment).trans (ih _ _ _)

theorem holdFragments_changes (S : Scope) (m : NetManager) (r : PeerRef) (fragmentId : ℕ)
    (held : Option IncomingFragments) : Changes S m (m.holdFragments r fragmentId held) :=
  Changes.aside rfl

theorem deliverFragments_changes (h : Ready S m r) (method : DeliveryMethod)
    (channelNumber : UInt8) (held : IncomingFragments) {endpoint : NetAddress}
    (he : endpoint = (m.peerAt r).endpoint) :
    Changes S m (m.deliverFragments method channelNumber held endpoint) := by
  have haside := (m.poolGetPacket_aside held.totalSize).trans
    (assemble_aside held.fragments 0 (m.poolGetPacket held.totalSize).1 _)
  rw [deliverFragments]
  refine haside.changes.trans ?_
  split
  · exact .refl
  · refine createReceiveEvent_changes (h.changes haside.changes) _ _ _ _ ?_
    rw [haside.peerAt, he]

theorem addReliablePacket_changes (h : Ready S m r) (method : DeliveryMethod)
    (packet : NetPacket) : Changes S m (m.addReliablePacket r method packet) := by
  rw [addReliablePacket]
  dsimp only
  split
  · exact createReceiveEvent_changes h _ _ _ _ rfl
  · split
    · exact (m.holdFragments_changes S r _ _).trans (poolRecycle_aside _ _).changes
    · split
      · exact m.holdFragments_changes S r _ _
      · refine (m.holdFragments_changes S r packet.fragmentId none).trans ?_
        refine deliverFragments_changes
          (h.changes (m.holdFragments_changes .quiet r packet.fragmentId none)) _ _ _ ?_
        rw [holdFragments, setPeer_self]

/-- The calls a channel makes while it processes a packet. -/
theorem applyCall_changes {call : PeerCall} (hc : call.Silent) (h : call.Delivers → Ready S m r)
    (idx : UInt8) : Changes S m (m.applyCall r idx call) := by
  cases call with
  | addToReliableChannelSendQueue => exact Changes.aside rfl
  | addReliablePacket method packet => exact addReliablePacket_changes (h trivial) method packet
  | createReceiveEvent packet method channelNumber headerSize =>
    exact createReceiveEvent_changes (h trivial) _ _ _ _ rfl
  | sendUserData packet => exact absurd rfl (hc packet)
  | recycleAndDeliver packet => exact m.recycleAndDeliver_changes S r packet
  | poolRecycle packet => exact (m.poolRecycle_aside packet).changes

theorem applyCalls_changes {calls : List PeerCall} (hc : ∀ c ∈ calls, c.Silent)
    (h : (∃ c ∈ calls, c.Delivers) → Ready S m r) (idx : UInt8) :
    Changes S m (m.applyCalls r idx calls) := by
  rw [applyCalls]
  induction calls generalizing m with
  | nil => exact .refl
  | cons call calls ih =>
    have hcall := hc call List.mem_cons_self
    refine (applyCall_changes hcall (fun hd => h ⟨call, List.mem_cons_self, hd⟩) idx).trans ?_
    refine ih (fun c hm => hc c (List.mem_cons_of_mem _ hm)) (fun ⟨c, hm, hd⟩ => ?_)
    have hready := h ⟨c, List.mem_cons_of_mem _ hm, hd⟩
    exact hready.changes (applyCall_changes hcall (fun _ => hready.toQuiet) idx)

end Reports

end NetManager

namespace NetChannel

theorem create_user (idx : UInt8) : (create idx).UserPackets := by
  rw [create]
  split
  · exact NetReliableChannel.UserPackets.new false idx
  · exact NetSequencedChannel.UserPackets.new false idx
  · exact NetReliableChannel.UserPackets.new true idx
  · exact NetSequencedChannel.UserPackets.new true idx

theorem create_addressed (idx : UInt8) : (create idx).Addressed idx := by
  have hlt : idx.toNat % channelTypeCount < 4 := Nat.mod_lt _ (by decide)
  rw [create]
  split
  · next h => exact NetReliableChannel.Addressed.new h
  · next h => exact NetSequencedChannel.Addressed.new h
  · next h => exact NetReliableChannel.Addressed.new h
  · next h0 h1 h2 =>
    refine NetSequencedChannel.Addressed.new ?_
    change idx.toNat % channelTypeCount = 3
    have h0' : ¬ idx.toNat % channelTypeCount = 0 := h0
    have h1' : ¬ idx.toNat % channelTypeCount = 1 := h1
    have h2' : ¬ idx.toNat % channelTypeCount = 2 := h2
    omega

variable {ch : NetChannel} {packet : NetPacket} {idx : UInt8}

theorem processPacket_addressed (h : ch.Addressed idx) (hp : packet.channelId = idx) :
    (ch.processPacket packet).1.Addressed idx ∧
      ∀ c ∈ (ch.processPacket packet).2.1, c.Addressed idx := by
  cases ch with
  | reliable ch => exact NetReliableChannel.processPacket_addressed h hp
  | sequenced ch => exact NetSequencedChannel.processPacket_addressed h hp

theorem addToQueue_addressed (h : ch.Addressed idx) (packet : NetPacket) :
    (ch.addToQueue packet).1.Addressed idx := by
  cases ch with
  | reliable ch => exact ⟨h.id, h.method, h.acks, h.held, h.pending⟩
  | sequenced ch => exact ⟨h.id, h.method, h.ack, h.last⟩

theorem sendAndCheckQueue_addressed (h : ch.Addressed idx) (ctx : ChannelContext) :
    (ch.sendAndCheckQueue ctx).1.Addressed idx ∧
      ∀ c ∈ (ch.sendAndCheckQueue ctx).2.1, c.Addressed idx := by
  cases ch with
  | reliable ch => exact NetReliableChannel.sendAndCheckQueue_addressed h ctx
  | sequenced ch => exact NetSequencedChannel.sendAndCheckQueue_addressed h ctx

theorem processPacket_user (h : ch.UserPackets) (packet : NetPacket) :
    (ch.processPacket packet).1.UserPackets ∧
      ∀ c ∈ (ch.processPacket packet).2.1, c.Silent ∧ (packet.property = .ack → ¬ c.Delivers) := by
  cases ch with
  | reliable ch => exact NetReliableChannel.processPacket_user h packet
  | sequenced ch => exact NetSequencedChannel.processPacket_user h packet

theorem addToQueue_user (h : ch.UserPackets) (hp : UserPacket packet) :
    (ch.addToQueue packet).1.UserPackets ∧
      ∀ c ∈ (ch.addToQueue packet).2, c.Silent ∧ ¬ c.Delivers := by
  cases ch with
  | reliable ch => exact ⟨NetReliableChannel.addToQueue_user h hp, addToQueue_silent _ _⟩
  | sequenced ch => exact ⟨NetSequencedChannel.addToQueue_user h hp, addToQueue_silent _ _⟩

theorem sendAndCheckQueue_user (h : ch.UserPackets) (ctx : ChannelContext) :
    (ch.sendAndCheckQueue ctx).1.UserPackets ∧
      ∀ c ∈ (ch.sendAndCheckQueue ctx).2.1, c.Sends := by
  cases ch with
  | reliable ch => exact NetReliableChannel.sendAndCheckQueue_user h ctx
  | sequenced ch => exact NetSequencedChannel.sendAndCheckQueue_user h ctx

end NetChannel

theorem Session.WellFormed.setChannel {p : NetPeer} (h : p.session.WellFormed) (idx : UInt8)
    {ch : NetChannel} (hch : ch.UserPackets) (hidx : ch.Addressed idx) :
    { p with channels := Function.update p.channels idx (some ch) }.session.WellFormed :=
  { h with
    channels := by
      intro i c hi
      change Function.update p.channels idx (some ch) i = some c at hi
      by_cases he : i = idx
      · rw [he, Function.update_self] at hi
        cases hi
        rw [he]
        exact ⟨hch, hidx⟩
      · rw [Function.update_of_ne he] at hi
        exact h.channels i c hi }

theorem SameIdentity.createChannel (p : NetPeer) (idx : UInt8) :
    SameIdentity p (p.createChannel idx) := by
  rw [NetPeer.createChannel]
  split
  · exact .refl p
  · exact ⟨rfl, rfl, rfl, rfl, fun h => h.setChannel idx
      (NetChannel.create_user idx) (NetChannel.create_addressed idx)⟩

@[simp] theorem NetPeer.createChannel_connectionState (p : NetPeer) (idx : UInt8) :
    (p.createChannel idx).connectionState = p.connectionState := by
  rw [createChannel]
  split <;> rfl

@[simp] theorem NetPeer.createChannel_timeSinceLastPacket (p : NetPeer) (idx : UInt8) :
    (p.createChannel idx).timeSinceLastPacket = p.timeSinceLastPacket := by
  rw [createChannel]
  split <;> rfl

@[simp] theorem NetPeer.createChannel_connectNumber (p : NetPeer) (idx : UInt8) :
    (p.createChannel idx).connectNumber = p.connectNumber := by
  rw [createChannel]
  split <;> rfl

theorem SameIdentity.trans {p p' p'' : NetPeer} (h : SameIdentity p p')
    (h' : SameIdentity p' p'') : SameIdentity p p'' where
  id := h'.id.trans h.id
  endpoint := h'.endpoint.trans h.endpoint
  connectTime := h'.connectTime.trans h.connectTime
  connectAcceptPacket := h'.connectAcceptPacket.trans h.connectAcceptPacket
  wellFormed := fun hw => h'.wellFormed (h.wellFormed hw)

theorem SameIdentity.clock (p : NetPeer) (time : ℤ) :
    SameIdentity p { p with timeSinceLastPacket := time } :=
  ⟨rfl, rfl, rfl, rfl, fun hw => { hw with }⟩

/-- A peer that has not ended may start its clock anew. -/
theorem Changes.heard {S : Scope} {m : NetManager} {r : PeerRef}
    (h : (m.peerAt r).connectionState ≠ .disconnected) :
    Changes S m (m.setPeer r { m.peerAt r with timeSinceLastPacket := 0 }) :=
  .single (.touch r (.clock _ 0) rfl rfl (fun hd _ => absurd hd h))

/-- The kinds of packets whose processing may report something. -/
def CarriesData (c : PacketProperty) : Prop :=
  c = .unreliable ∨ c = .channeled ∨ c = .pong ∨ c = .merged

namespace NetManager

section Process

variable {S : Scope} {m : NetManager} {r : PeerRef} {n : UInt8}

theorem processPing_changes (hS : S.Serving n) (h : Serves m r n) (packet : NetPacket) :
    Changes S m (m.processPing r packet) := by
  have hw := h.consistent.wellFormed r h.lt
  rw [processPing]
  dsimp only
  split
  · have hpong := (hw.pong.write (i := 3) three_pos
      (leBytes 8 m.getCurrentTime.1.toUInt64.toNat)).setSequence packet.sequence
    refine ReflTransGen.trans (ReflTransGen.trans ?_ (sendRaw_changes hS.closes _ _ _
      (hS.emits _ _ (sessionDatagram_of_unstamped hpong rfl (.inr (.inl rfl))))))
      (poolRecycle_aside _ _).changes
    exact m.getCurrentTime_aside.changes.trans
      (Changes.touch ⟨rfl, rfl, rfl, rfl, fun _ => { hw with pong := hpong }⟩ rfl rfl rfl)
  · exact (m.poolRecycle_aside packet).changes

theorem processPong_changes (h : Ready S m r) (packet : NetPacket) :
    Changes S m (m.processPong r packet) := by
  rw [processPong]
  dsimp only
  split
  · have hclock := m.highResolutionNow_aside.trans (getCurrentTime_aside _)
    have htouch : ∀ (T : Scope) {p : NetPeer}, p.session = (m.peerAt r).session →
        Changes T m (m.highResolutionNow.2.getCurrentTime.2.setPeer r p) :=
      fun T p hp => hclock.changes.trans (Changes.aside hp)
    refine ReflTransGen.trans ?_ (poolRecycle_aside _ _).changes
    refine ReflTransGen.trans (htouch S ?_)
      (connectionLatencyUpdated_changes (h.changes (htouch .quiet ?_)) _ ?_)
    · rfl
    · rfl
    · rw [setPeer_self]
      rfl
  · exact (m.poolRecycle_aside packet).changes

theorem processChanneled_changes (hm : Consistent m) (hr : r < m.peerCount) {packet : NetPacket}
    (h : packet.property = .ack ∨ Ready S m r) : Changes S m (m.processChanneled r packet) := by
  rw [processChanneled]
  dsimp only
  split
  · exact (m.poolRecycle_aside packet).changes
  · generalize hp : (if packet.property = .ack then m.peerAt r
      else (m.peerAt r).createChannel packet.channelId) = p
    have hsame : SameIdentity (m.peerAt r) p ∧
        p.connectionState = (m.peerAt r).connectionState ∧
        p.connectNumber = (m.peerAt r).connectNumber ∧
        p.timeSinceLastPacket = (m.peerAt r).timeSinceLastPacket := by
      rw [← hp]
      split
      · exact ⟨.refl _, rfl, rfl, rfl⟩
      · exact ⟨.createChannel _ _, by simp, by simp, by simp⟩
    split
    · exact (m.poolRecycle_aside packet).changes
    · next channel hch =>
      have hw := hsame.1.wellFormed (hm.wellFormed r hr)
      have huser := NetChannel.processPacket_user (hw.channels _ _ hch).1 packet
      have hidx := @NetChannel.processPacket_addressed _ packet _ (hw.channels _ _ hch).2 rfl
      have htouch : ∀ T : Scope, Changes T m (m.setPeer r { p with
          channels := Function.update p.channels packet.channelId
            (some (channel.processPacket packet).1) }) := fun T =>
        Changes.touch (hsame.1.trans ⟨rfl, rfl, rfl, rfl,
          fun hw => hw.setChannel _ huser.1 hidx.1⟩) hsame.2.1 hsame.2.2.1 hsame.2.2.2
      have hcalls := applyCalls_changes (S := S) (fun c hc => (huser.2 c hc).1)
        (fun ⟨c, hc, hd⟩ => (h.resolve_left (fun ha => (huser.2 c hc).2 ha hd)).changes
          (htouch .quiet)) packet.channelId
      refine (htouch S).trans (hcalls.trans ?_)
      split
      · exact .refl
      · exact (poolRecycle_aside _ _).changes

theorem processMtuPacket_changes (hS : S.Serving n) {packet : NetPacket}
    (hn : packet.connectionNumber = n) : Changes S m (m.processMtuPacket r packet) := by
  have hrecycle : Changes S m (m.poolRecycle packet) := (m.poolRecycle_aside packet).changes
  rw [processMtuPacket]
  dsimp only
  split
  · exact hrecycle
  · next hsize =>
    split
    · exact hrecycle
    · split
      · refine (Changes.aside (p := { m.peerAt r with mtuCheckAttempts := 0 }) rfl).trans ?_
        refine sendRawAndRecycle_changes hS.closes _ _ _ (hS.emits _ _ ?_)
        have hpos : 1 ≤ (packet.setProperty .mtuOk).size := by
          have h508 : possibleMtu.getD 0 0 = 508 := rfl
          rw [NetPacket.size_setProperty]
          omega
        rw [SessionDatagram, NetPacket.headerProperty_wire _ hpos, NetPacket.headerNumber_wire _ hpos,
          NetPacket.property_setProperty, NetPacket.connectionNumber_setProperty]
        change packet.connectionNumber = n &&& 3
        rw [← hn, NetPacket.connectionNumber_and]
      · split
        · exact hrecycle
        · split
          · exact hrecycle
          · refine (Changes.aside ?_).trans (poolRecycle_aside _ _).changes
            split <;> rfl

/-- What every recursive call does, the loop over a merged packet does. -/
theorem processMerged_changes {process : NetManager → NetPacket → NetManager}
    {I : NetManager → Prop} (hI : ∀ m m', I m → Changes S m m' → I m')
    (hp : ∀ m packet, I m → Changes S m (process m packet)) (packet : NetPacket)
    (fuel pos : ℕ) (hm : I m) : Changes S m (processMerged process packet fuel pos m) := by
  induction fuel generalizing pos m with
  | zero => exact .refl
  | succ fuel ih =>
    rw [processMerged]
    dsimp only
    split
    · exact .refl
    · split
      · exact .refl
      · have hget := (m.poolGetPacket_aside (packet.getValueAt pos 2)).changes (S := S)
        split
        · exact hget
        · have hproc := fun packet => hget.trans (hp _ packet (hI _ _ hm hget))
          exact (hproc _).trans (ih _ (hI _ _ hm (hproc _)))

/-- The peer `r` serves, and the registry finds it under its address. -/
structure Processes (n : UInt8) (r : PeerRef) (m : NetManager) : Prop
    extends Serves m r n where
  found : m.tryGetPeer (m.peerAt r).endpoint = some r

theorem Processes.changes {m' : NetManager} (hS : S.Serving n) (hr : ¬ S.registers)
    (h : Processes n r m) (hc : Changes S m m') : Processes n r m' :=
  ⟨h.toServes.changes hS.accepts hc, hc.found hr h.lt h.found⟩

theorem processPacketWith_changes {process : NetManager → NetPacket → NetManager}
    (hS : S.Serving n) (hr : ¬ S.registers)
    (hp : ∀ m packet, Processes n r m → ((m.peerAt r).connectionState = .outgoing → S.early) →
      Changes S m (process m packet))
    (h : Processes n r m) {packet : NetPacket}
    (he : (m.peerAt r).connectionState = .outgoing → packet.connectionNumber = n →
      CarriesData packet.property → S.early) :
    Changes S m (m.processPacketWith process r packet) := by
  rw [processPacketWith]
  dsimp only
  split
  · exact (m.poolRecycle_aside packet).changes
  · next hc =>
    have hconnected : (m.peerAt r).connectionState = .connected ∨
        (m.peerAt r).connectionState = .outgoing := by
      simpa [NetPeer.isConnected, or_iff_not_imp_left] using hc
    have hopen : (m.peerAt r).connectionState ≠ .disconnected := by
      rcases hconnected with hs | hs <;> rw [hs] <;> decide
    split
    · refine (Changes.aside ?_).trans (poolRecycle_aside _ _).changes
      have : ¬ (m.peerAt r).connectionState = .shutdownRequested := by
        rcases hconnected with hs | hs <;> rw [hs] <;> decide
      rw [if_neg this]
    · split
      · exact (m.poolRecycle_aside packet).changes
      · next hnumber =>
        have hn : packet.connectionNumber = n := by
          rw [← h.number]
          exact not_not.mp hnumber
        have htouch : ∀ T : Scope, Changes T m (m.setPeer r { m.peerAt r with
            timeSinceLastPacket := 0 }) := fun T => Changes.heard hopen
        have hproc := h.changes hS hr (htouch S)
        have hready : CarriesData packet.property → Ready S (m.setPeer r { m.peerAt r with
            timeSinceLastPacket := 0 }) r := by
          intro hd
          refine Ready.changes ⟨h.lt, h.found, ?_⟩ (htouch .quiet)
          exact hconnected.imp_right (fun ho => he ho hn hd)
        refine (htouch S).trans ?_
        split
        · next hprop =>
          refine ReflTransGen.trans ?_ (poolRecycle_aside _ _).changes
          refine processMerged_changes (I := fun m => Processes n r m ∧
            ((m.peerAt r).connectionState = .outgoing → S.early)) ?_
            (fun m packet hm => hp m packet hm.1 hm.2) _ _ _ ⟨hproc, ?_⟩
          · intro m m' hm hc
            exact ⟨hm.1.changes hS hr hc, fun ho => hm.2 (by_contra fun hn =>
              hc.not_outgoing hm.1.lt hn ho)⟩
          · intro ho
            rw [setPeer_self] at ho
            exact he ho hn (hprop ▸ .inr (.inr (.inr rfl)))
        · exact processPing_changes hS hproc.toServes packet
        · next hprop => exact processPong_changes (hready (hprop ▸ .inr (.inr (.inl rfl)))) packet
        · next hprop => exact processChanneled_changes hproc.consistent hproc.lt (.inl hprop)
        · next hprop =>
          exact processChanneled_changes hproc.consistent hproc.lt
            (.inr (hready (hprop ▸ .inr (.inl rfl))))
        · next hprop =>
          refine createReceiveEvent_changes (hready (hprop ▸ .inl rfl)) _ _ _ _ ?_
          rw [setPeer_self]
        · exact processMtuPacket_changes hS hn
        · exact processMtuPacket_changes hS hn
        · exact .refl

theorem processPacketTo_changes (hS : S.Serving n) (hr : ¬ S.registers) (depth : ℕ) :
    ∀ m packet, Processes n r m → ((m.peerAt r).connectionState = .outgoing → S.early) →
      Changes S m (processPacketTo r depth m packet) := by
  induction depth with
  | zero => exact fun _ _ _ _ => .refl
  | succ depth ih =>
    exact fun m packet h he => processPacketWith_changes hS hr ih h (fun ho _ _ => he ho)

/-- Processing a packet is a sequence of changes of the session; a peer that is not yet connected
reports something only for a packet that carries data under its number. -/
theorem processPacket_changes (hS : S.Serving n) (hr : ¬ S.registers) (h : Processes n r m)
    {packet : NetPacket}
    (he : (m.peerAt r).connectionState = .outgoing → packet.connectionNumber = n →
      CarriesData packet.property → S.early) : Changes S m (m.processPacket r packet) := by
  rw [processPacket, processPacketTo]
  exact processPacketWith_changes hS hr (processPacketTo_changes hS hr _) h he

end Process

end NetManager

end LiteNet.Manager
