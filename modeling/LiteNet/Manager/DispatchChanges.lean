import LiteNet.Manager.Dispatch
import LiteNet.Manager.RegistryChanges

/-! # The steps of a manager as sequences of changes

Whatever arrives, is called or comes due is a sequence of changes, so what changes
keep holds in every state a manager reaches.
-/

namespace LiteNet.Manager
open Library Wire Channels Relation

/-- An accept of its time connects a peer that waits for one. -/
theorem NetPeer.processConnectAccept_spec {p p' : NetPeer} {accept : NetConnectAcceptPacket}
    (h : p.processConnectAccept accept = some p') :
    p.connectionState = .outgoing ∧ p'.connectionState = .connected ∧
      p'.connectTime = accept.connectionTime ∧ p'.connectNumber = accept.connectionNumber ∧
      SameIdentity p p' := by
  rw [processConnectAccept] at h
  split at h
  · cases h
  · next hs =>
    rw [not_not] at hs
    split at h
    · cases h
    · next htime =>
      cases h
      refine ⟨hs, rfl, (not_not.mp htime).symm, rfl, rfl, rfl, rfl, rfl, fun hw => ?_⟩
      exact { hw with
        accept := fun q hq => absurd hs (hw.accept q hq).1
        mergeSingle := fun hc => absurd hs (hw.mergeSingle hc).1
        outgoing := nofun
        connected := fun _ => .inl (hw.outgoing hs) }

/-- The number of a connect request was checked when it was parsed. -/
theorem fromData_number {packet : NetPacket} {request : NetConnectRequestPacket}
    (h : NetConnectRequestPacket.fromData packet = some request) :
    request.connectionNumber.toNat < maxConnectionNumber := by
  rw [NetConnectRequestPacket.fromData] at h
  split at h
  · cases h
  · next hn =>
    split at h
    · cases h
    · cases h
      exact not_le.mp hn

namespace NetManager

section Received

variable {S : Scope} {m : NetManager}

/-- The registry finds a peer under its own address. -/
theorem found_of_registered (hm : Consistent m) {addr : NetAddress} {r : PeerRef}
    (h : m.tryGetPeer addr = some r) :
    r < m.peerCount ∧ m.tryGetPeer (m.peerAt r).endpoint = some r := by
  obtain ⟨hlt, hkey⟩ := hm.registered _ r h
  rw [tryGetPeer, hkey]
  exact ⟨hlt, h⟩

theorem reply_changes (hS : S.Open) (hm : Consistent m) {property : PacketProperty}
    (hp : property ≠ .connectAccept) (hs : 1 ≤ property.getHeaderSize) (size : ℕ)
    (addr : NetAddress) :
    Changes S m ((m.poolGetWithProperty property size).2.sendRawAndRecycle
      (m.poolGetWithProperty property size).1 addr).1 := by
  have hpacket := poolGetWithProperty_unstamped hm property size (by omega)
  refine ReflTransGen.trans (Aside.changes (poolGetPacket_aside m _))
    (sendRawAndRecycle_changes hS.closes _ _ _ (hS.plain _ _ ?_))
  rw [hpacket.headerProperty]
  exact hp

theorem onPeerNotFound_changes (hS : S.Open) (hm : Consistent m) (r : PeerRef)
    (packet : NetPacket) (addr : NetAddress) : Changes S m (m.onPeerNotFound r packet addr) := by
  rw [onPeerNotFound]
  dsimp only
  split
  · exact (m.poolRecycle_aside packet).changes
  · split
    · refine ReflTransGen.trans (Changes.aside ?_)
        (sendRawAndRecycle_changes hS.closes _ _ _ (hS.plain _ _ ?_))
      · rfl
      · rw [(NetConnectAcceptPacket.makeNetworkChanged_unstamped _ _ _).headerProperty]
        decide
    · split
      · exact disconnectPeerForce_changes hS.closes _ _ _ _ _
      · split
        · have hrecycle := m.poolRecycle_aside packet
          have hpacket := (poolGetWithProperty_unstamped (hrecycle.consistent hm) .peerNotFound
            1 (by decide)).write one_pos [1]
          refine ReflTransGen.trans (hrecycle.trans (poolGetPacket_aside _ _)).changes
            (sendRawAndRecycle_changes hS.closes _ _ _ (hS.plain _ _ ?_))
          change headerProperty ((((m.poolRecycle packet).poolGetWithProperty .peerNotFound 1).1.write
            1 [1]).wire) ≠ _
          rw [hpacket.headerProperty]
          decide
        · exact .refl

theorem onDisconnect_changes (hS : S.Open) (hm : Consistent m) (peer : Option PeerRef)
    (packet : NetPacket) (addr : NetAddress) : Changes S m (m.onDisconnect peer packet addr) := by
  have hok : ∀ m', Changes S m m' → Changes S m
      ((m'.poolGetWithProperty .shutdownOk 0).2.sendRawAndRecycle
        (m'.poolGetWithProperty .shutdownOk 0).1 addr).1 := fun m' h =>
    h.trans (reply_changes hS (Changes.consistent h hm) (by decide) (by decide) 0 addr)
  cases peer with
  | none => exact hok _ (m.poolRecycle_aside packet).changes
  | some r =>
    rw [onDisconnect]
    cases (m.peerAt r).processDisconnect packet with
    | none => exact (m.poolRecycle_aside packet).changes
    | disconnect => exact hok _ (disconnectPeerForce_changes hS.closes ..)
    | reject => exact hok _ (disconnectPeerForce_changes hS.closes ..)

theorem onConnectAccept_changes {peer : Option PeerRef}
    (known : ∀ r, peer = some r → ∃ k, m.peers k = some r) (packet : NetPacket)
    (ha : ∀ accept, NetConnectAcceptPacket.fromData packet = some accept →
      S.accepts accept.connectionTime accept.connectionNumber) :
    Changes S m (m.onConnectAccept peer packet) := by
  cases peer with
  | none => exact (m.poolRecycle_aside packet).changes
  | some r =>
    rw [onConnectAccept]
    cases hp : (NetConnectAcceptPacket.fromData packet).bind
        (m.peerAt r).processConnectAccept with
    | none => exact (m.poolRecycle_aside packet).changes
    | some p =>
      obtain ⟨accept, haccept, hprocess⟩ := Option.bind_eq_some_iff.mp hp
      obtain ⟨before, after, htime, hnumber, same⟩ := NetPeer.processConnectAccept_spec hprocess
      obtain ⟨e, het, hep, hu, he⟩ := createEvent_eq (m.setPeer r p)
        { type := .connect, peer := some r }
      dsimp only
      rw [he]
      refine .trans (.single (.establish r p e same ?_ before after het hep (known r rfl)
        (NetEvent.filled_of_peer (.inl het) hep hu)))
        (poolRecycle_aside _ _).changes
      rw [htime, hnumber]
      exact ha accept haccept

theorem onConnectRequest_changes (hS : S.Open) (hm : Consistent m) (packet : NetPacket)
    (addr : NetAddress) :
    Changes S m (m.onConnectRequest (m.tryGetPeer addr) packet addr) := by
  rw [onConnectRequest]
  split
  · exact (reply_changes hS hm (by decide) (by decide) 0 addr).trans (poolRecycle_aside _ _).changes
  · split
    · exact (m.poolRecycle_aside packet).changes
    · next hrequest => exact processConnectRequest_changes hS hm addr (fromData_number hrequest)

theorem onUnconnected_changes (m : NetManager) (enabled : Bool) {type : NetEventType}
    (ht : type = .broadcast ∨ type = .receiveUnconnected) (packet : NetPacket)
    (addr : NetAddress) : Changes S m (m.onUnconnected enabled type packet addr) := by
  rw [onUnconnected]
  split
  · exact (m.poolRecycle_aside packet).changes
  · refine Changes.createEvent (fun r h => ?_) ⟨rfl, ?_⟩
    · cases h.1
    · rcases ht with rfl | rfl <;> rfl

theorem onSessionPacket_changes (hS : S.Open) (hm : Consistent m) (packet : NetPacket)
    (addr : NetAddress)
    (he : ∀ r, m.tryGetPeer addr = some r → (m.peerAt r).connectionState = .outgoing →
      packet.connectionNumber = (m.peerAt r).connectNumber → CarriesData packet.property → S.early) :
    Changes S m (m.onSessionPacket (m.tryGetPeer addr) packet addr) := by
  cases hr : m.tryGetPeer addr with
  | none =>
    have hrecycle := m.poolRecycle_aside packet
    exact hrecycle.changes.trans
      (reply_changes hS (hrecycle.consistent hm) (by decide) (by decide) 0 addr)
  | some r =>
    obtain ⟨hlt, hfound⟩ := found_of_registered hm hr
    exact Changes.of_inSession (processPacket_changes (hS.serving _) id
      ⟨⟨hm, hlt, rfl⟩, hfound⟩ (he r hr))

/-- Handling a datagram is a sequence of changes: a session is established only by the accept that
the datagram holds, and reports early only what the datagram carries. -/
theorem onMessageReceived_changes (hS : S.Open) (hm : Consistent m) (packet : NetPacket)
    (addr : NetAddress)
    (ha : packet.property = .connectAccept →
      ∀ accept, NetConnectAcceptPacket.fromData packet = some accept →
        S.accepts accept.connectionTime accept.connectionNumber)
    (he : ∀ r, m.tryGetPeer addr = some r → (m.peerAt r).connectionState = .outgoing →
      packet.connectionNumber = (m.peerAt r).connectNumber → CarriesData packet.property → S.early) :
    Changes S m (m.onMessageReceived packet addr) := by
  rw [onMessageReceived]
  split
  · exact (m.poolRecycle_aside packet).changes
  · dsimp only
    split
    · exact onConnectRequest_changes hS hm packet addr
    · exact onUnconnected_changes m _ (.inl rfl) packet addr
    · exact onUnconnected_changes m _ (.inr rfl) packet addr
    · split
      · exact .refl
      · exact onPeerNotFound_changes hS hm _ packet addr
    · split
      · exact .refl
      · split
        · exact disconnectPeerForce_changes hS.closes _ _ _ _ _
        · exact .refl
    · exact onDisconnect_changes hS hm _ packet addr
    · next hp => exact onConnectAccept_changes (fun r hr => ⟨_, hr⟩) packet (ha hp)
    · exact onSessionPacket_changes hS hm packet addr he

end Received

section Actions

variable {S : Scope} {m : NetManager}

theorem updatePeers_changes (hS : S.Open) (he : ∀ r, S.elapses r) (elapsed : ℤ) (fuel : ℕ)
    (hm : Consistent m)
    {peer : Option PeerRef} (hr : ∀ r, peer = some r → r < m.peerCount) :
    Changes S m (updatePeers elapsed fuel peer m).1 := by
  induction fuel generalizing m peer with
  | zero =>
    cases peer <;> exact .refl
  | succ fuel ih =>
    cases peer with
    | none => exact .refl
    | some r =>
      rw [updatePeers]
      dsimp only
      split
      · exact ih hm (fun q hq => hm.listed.next r q hq)
      · have hupdate : Changes S m (m.update r elapsed) := Changes.of_inSession
          (update_changes (hS.serving _) ⟨hm, hr r rfl, rfl⟩ (he r) elapsed)
        have hm' := Changes.consistent hupdate hm
        exact hupdate.trans (ih hm' (fun q hq => hm'.listed.next r q hq))

theorem updateLogic_changes (hS : S.Open) (hm : Consistent m) (he : ∀ r, S.elapses r)
    (purges : ¬ S.orderly) (elapsed : ℤ) : Changes S m (m.updateLogic elapsed) := by
  rw [updateLogic]
  refine (updatePeers_changes hS he elapsed m.peerCount hm hm.listed.head).trans ?_
  generalize (updatePeers elapsed m.peerCount m.headPeer m).1 = m'
  generalize (updatePeers elapsed m.peerCount m.headPeer m).2 = addresses
  induction addresses generalizing m' with
  | nil => exact .refl
  | cons addr addresses ih =>
    have hremove := removePeerInternal_changes hS.registers m' addr (fun ho => absurd ho purges)
    exact hremove.trans (ih _)

theorem recycleEvent_aside (m : NetManager) (event : NetEvent) : Aside m (m.recycleEvent event) := by
  have hsource := m.poolRecycleOption_aside event.readerSource
  rw [recycleEvent]
  split
  · exact hsource
  · exact hsource.trans (poolRecycle_aside _ _)

/-- The packet that `receive_logic` reads a datagram into. -/
def receivePacket (m : NetManager) (bytes : Bytes) : NetPacket :=
  ((m.poolGetPacket maxPacketSize).1.write 0 bytes).resize bytes.length

/-- Reading a datagram leaves the peers where they are. -/
theorem tryGetPeer_poolGetPacket (m : NetManager) (size : ℕ) (addr : NetAddress) :
    (m.poolGetPacket size).2.tryGetPeer addr = m.tryGetPeer addr := by
  rw [tryGetPeer, (m.poolGetPacket_aside size).peers, tryGetPeer]

/-- A datagram that fits the packet is read as it was sent. -/
theorem receivePacket_wire {bytes : Bytes} (h : bytes.length ≤ maxPacketSize) :
    (m.receivePacket bytes).wire = bytes := by
  apply NetPacket.wire_write_resize
  have hsize := (m.poolGetPacket maxPacketSize).1.size_le
  rw [poolGetPacket_size] at hsize
  exact h.trans hsize

/-- What a scope must let a datagram do. -/
structure Lets (S : Scope) (m : NetManager) (packet : NetPacket) (addr : NetAddress) : Prop where
  accepts : packet.property = .connectAccept →
    ∀ accept, NetConnectAcceptPacket.fromData packet = some accept →
      S.accepts accept.connectionTime accept.connectionNumber
  early : ∀ r, m.tryGetPeer addr = some r → (m.peerAt r).connectionState = .outgoing →
    packet.connectionNumber = (m.peerAt r).connectNumber → CarriesData packet.property → S.early

theorem receiveLogic_changes (hS : S.Open) (hm : Consistent m) (bytes : Bytes) (addr : NetAddress)
    (h : Lets S m (m.receivePacket bytes) addr) : Changes S m (m.receiveLogic bytes addr) := by
  have hget := m.poolGetPacket_aside maxPacketSize
  refine hget.changes.trans (onMessageReceived_changes hS (hget.consistent hm) _ addr h.accepts ?_)
  intro r hr hs hn
  rw [hget.peerAt] at hs hn
  rw [tryGetPeer, hget.peers] at hr
  exact h.early r hr hs hn

/-- What a scope must let an action do. -/
structure Permits (S : Scope) (m : NetManager) (a : Action) : Prop where
  receives : ∀ bytes addr, a = .receive bytes addr → Lets S m (m.receivePacket bytes) addr
  purges : ∀ elapsed, a = .updateLogic elapsed → ¬ S.orderly ∧ ∀ r, S.elapses r
  opens : ∀ address connectData uninitialized, a = .connect address connectData uninitialized →
    m.running = true → m.connectionRequests address.key = none → m.peers address.key = none →
      S.opens uninitialized
  answers : ∀ q, a.answered = some q → Answering S m q

theorem act_changes (hS : S.Open) (hm : Consistent m) {a : Action} (ha : a.Enabled m)
    (h : Permits S m a) : Changes S m (m.act a) := by
  cases a with
  | receive bytes addr => exact receiveLogic_changes hS hm bytes addr (h.receives bytes addr rfl)
  | updateLogic elapsed =>
    obtain ⟨hpurges, helapses⟩ := h.purges elapsed rfl
    exact updateLogic_changes hS hm helapses hpurges elapsed
  | recycleEvent event => exact (m.recycleEvent_aside event).changes
  | connect address connectData uninitialized =>
    exact connect_changes hS m _ _ _ (h.opens _ _ _ rfl)
  | accept q => exact accept_changes hS (h.answers q rfl)
  | acceptIfKey q expectedKey => exact acceptIfKey_changes hS (h.answers q rfl) expectedKey
  | reject q rejectData offset size force => exact reject_changes hS (h.answers q rfl) ..
  | disconnectAll data offset size => exact disconnectAll_changes hS hm data offset size
  | send r data offset size channelNumber deliveryMethod userData =>
    exact sendInternal_changes hm ha ..

end Actions

/-- A scope in which everything may happen. -/
def fullScope : Scope :=
  ⟨fun _ _ => True, fun _ _ => True, True, True, True, fun _ => True, fun _ => True, False,
    fun _ => True⟩

theorem fullScope_open : fullScope.Open where
  closes := trivial
  registers := trivial
  opens := fun _ _ => trivial
  plain := fun _ _ _ => trivial
  accept := fun _ _ _ _ _ => trivial

theorem Step.changes {m m' : NetManager} (h : Step m m') (hm : Consistent m) :
    Changes fullScope m m' := by
  obtain ⟨a, ha, rfl⟩ := h
  refine act_changes fullScope_open hm ha ⟨fun _ _ _ => ⟨?_, ?_⟩,
    fun _ _ => ⟨id, fun _ => trivial⟩, ?_, ?_⟩
  · exact fun _ _ _ => trivial
  · exact fun _ _ _ _ _ => trivial
  · exact fun _ _ _ _ _ _ _ => trivial
  · exact fun _ _ => ⟨trivial, fun _ _ => trivial, trivial⟩

theorem Initial.books {m : NetManager} (h : Initial m) (answering : RequestRef → Prop) :
    Books answering m where
  waiting := fun k q hq => absurd hq (by rw [h.connectionRequests]; nofun)
  pending := fun q hq => absurd hq (by rw [h.requestCount]; exact Nat.not_lt_zero q)
  number := fun q hq => absurd hq (by rw [h.requestCount]; exact Nat.not_lt_zero q)

theorem Initial.consistent {m : NetManager} (h : Initial m) : Consistent m where
  wellFormed := fun r hr => absurd hr (by rw [h.peerCount]; exact Nat.not_lt_zero r)
  pool := by simp [h.packetPool]
  registered := fun k r hr => absurd hr (by rw [h.peers]; nofun)
  separate := fun k _ _ => h.connectionRequests k
  listed := ⟨fun r hr => absurd hr (by rw [h.headPeer]; nofun),
    fun q r hr => absurd hr (by rw [h.nextPeer]; nofun)⟩
  books := h.books _

theorem consistent_of_reachable {m : NetManager} (h : Reachable Initial Step m) : Consistent m :=
  h.invariant (P := Consistent) (fun _ hi => hi.consistent)
    (fun _ _ hm hs => Changes.consistent (hs.changes hm) hm)

theorem consistent_of_run {m m' : NetManager} (h : ReflTransGen Step m m') (hm : Consistent m) :
    Consistent m' ∧ m.peerCount ≤ m'.peerCount := by
  induction h with
  | refl => exact ⟨hm, le_rfl⟩
  | tail _ hs ih =>
    have hchanges := Step.changes hs ih.1
    exact ⟨Changes.consistent hchanges ih.1, ih.2.trans (Changes.evolves hchanges).count⟩

theorem initial_new (currentTimes : Stream' Int64) (highResolutionTimes : Stream' ℤ)
    (sendResults : Stream' SendResult) :
    Initial (NetManager.new currentTimes highResolutionTimes sendResults) :=
  ⟨rfl, rfl, fun _ => rfl, rfl, fun _ => rfl, fun _ => rfl, rfl, fun _ => rfl, rfl, rfl⟩

/-- A client that asked for a connection at time 5. -/
def connectingClient : NetManager :=
  (NetManager.new (.const 5) (.const 0) (.const .ok)).act (.connect ⟨2, 1, 2, 0⟩ [] 0)

theorem connectingClient_reachable : Reachable Initial Step connectingClient :=
  (Reachable.initial (initial_new _ _ _)).tail ⟨.connect _ _ _, trivial, rfl⟩

/-- A client whose only request, made at time 5, was accepted. -/
def connectedClient : NetManager :=
  ((NetManager.new (.const 5) (.const 0) (.const .ok)).act (.connect ⟨2, 1, 2, 0⟩ [] 0)).act
    (.receive (NetConnectAcceptPacket.make 5 0 0).wire ⟨2, 1, 2, 0⟩)

theorem connectedClient_reachable : Reachable Initial Step connectedClient :=
  connectingClient_reachable.tail
    ⟨.receive _ _, show _ ≤ maxPacketSize by decide +kernel, rfl⟩

end NetManager

end LiteNet.Manager
