import LiteNet.Manager.DispatchChanges

/-! # The exchange after a reply that a peer was not found

The host that gets the reply asks back with a longer packet. The second reply, which
ends the session, comes from the branch for a peer that was found, so a host that has
the peer answers in place of the one that has not.
-/

namespace LiteNet.Manager
open Library Wire Channels Relation

namespace NetManager

variable {m a b : NetManager} {r : PeerRef} {bytes : Bytes} {addr : NetAddress}

/-- The datagrams to `addr` in the log of `m'` that are not in the log of `m`. -/
def sentTo (m m' : NetManager) (addr : NetAddress) : List Bytes :=
  ((m'.sent.drop m.sent.length).filter (·.endpoint = addr)).map (·.bytes)

/-- Datagrams from `addr` arrive one after the other. -/
def deliver (m : NetManager) (datagrams : List Bytes) (addr : NetAddress) : NetManager :=
  datagrams.foldl (fun m bytes => m.receiveLogic bytes addr) m

/-- A first reply reaches `a`, and everything that the two hosts send to each other on account of it
is delivered. -/
def exchange (a b : NetManager) (reply : Bytes) (addrA addrB : NetAddress) :
    NetManager × NetManager :=
  let a' := a.receiveLogic reply addrB
  let b' := b.deliver (sentTo a a' addrB) addrA
  (a'.deliver (sentTo b b' addrA) addrB, b')

/-- The session of `r` ends exactly if the other host has no peer for it. -/
structure Resolves (a b : NetManager) (r : PeerRef) (reply : Bytes) (addrA addrB : NetAddress) :
    Prop where
  lost : b.tryGetPeer addrA = none →
    ((exchange a b reply addrA addrB).1.peerAt r).connectionState = .disconnected ∧
      ∃ e ∈ (exchange a b reply addrA addrB).1.events, e.type = .disconnect ∧ e.peer = some r ∧
        e.disconnectReason = .peerNotFound
  kept : ∀ s, b.tryGetPeer addrA = some s → (b.peerAt s).connectionState = .connected →
    ((exchange a b reply addrA addrB).1.peerAt r).connectionState = .connected ∧
      ((exchange a b reply addrA addrB).2.peerAt s).connectionState = .connected

/-- A first reply for the connected peer `r`. -/
structure FirstReply (a : NetManager) (r : PeerRef) (reply : Bytes) (addrB : NetAddress) : Prop where
  found : a.tryGetPeer addrB = some r
  connected : (a.peerAt r).connectionState = .connected
  size : reply.length = 1
  property : (NetPacket.received reply).property = .peerNotFound
  verify : (NetPacket.received reply).verify = true

/-- The next send of the manager succeeds. -/
structure Sends (m : NetManager) : Prop where
  running : m.running = true
  result : m.nextSendResult.1 = .ok

/-- A send that succeeds is logged, and nothing else. -/
theorem Sends.sendRaw (h : m.Sends) (bytes : Bytes) (addr : NetAddress) :
    Aside (m.logSent ⟨addr, bytes⟩) (m.sendRaw bytes addr).1 := by
  have hrunning : (m.logSent ⟨addr, bytes⟩).running = true := h.running
  have hresult : (m.logSent ⟨addr, bytes⟩).nextSendResult.1 = .ok := h.result
  rw [NetManager.sendRaw]
  dsimp only
  rw [hrunning, hresult]
  exact nextSendResult_aside _

theorem Sends.poolGetPacket (h : m.Sends) (size : ℕ) : (m.poolGetPacket size).2.Sends := by
  rw [NetManager.poolGetPacket]
  split <;> exact ⟨h.running, h.result⟩

theorem Sends.poolRecycle (h : m.Sends) (packet : NetPacket) : (m.poolRecycle packet).Sends := by
  rw [NetManager.poolRecycle]
  split <;> exact ⟨h.running, h.result⟩

/-- A reply of this kind that arrives from an address without a peer is dropped. -/
theorem receiveLogic_peerNotFound (m : NetManager) (addr : NetAddress)
    (h : bytes.length ≤ maxPacketSize) {packet : NetPacket} (wire : packet.wire = bytes)
    (size : 0 < packet.size) (property : packet.property = .peerNotFound)
    (verify : packet.verify = true) :
    m.receiveLogic bytes addr =
      match m.tryGetPeer addr with
      | none => (m.poolGetPacket maxPacketSize).2
      | some r => (m.poolGetPacket maxPacketSize).2.onPeerNotFound r (m.receivePacket bytes) addr := by
  have hwire : (m.receivePacket bytes).wire = packet.wire := by
    rw [receivePacket_wire h, wire]
  rw [receiveLogic]
  change (m.poolGetPacket maxPacketSize).2.onMessageReceived (m.receivePacket bytes) addr = _
  rw [onMessageReceived, NetPacket.verify_of_wire hwire size, verify]
  dsimp only
  rw [NetPacket.property_of_wire hwire size, property, tryGetPeer_poolGetPacket]
  rfl

/-- The packet that a peer asks back with. -/
def networkChanged (p : NetPeer) : NetPacket :=
  NetConnectAcceptPacket.makeNetworkChanged p.connectTime p.connectNumber p.remoteId

theorem networkChanged_unstamped (p : NetPeer) : (networkChanged p).Unstamped .peerNotFound :=
  NetConnectAcceptPacket.makeNetworkChanged_unstamped _ _ _

theorem receive_firstReply {reply : Bytes} {addrB : NetAddress} (h : FirstReply a r reply addrB)
    (hs : a.Sends) :
    (a.receiveLogic reply addrB).sent =
        a.sent ++ [⟨addrB, (networkChanged (a.peerAt r)).wire⟩] ∧
      (a.receiveLogic reply addrB).peers = a.peers ∧
      (a.receiveLogic reply addrB).peerAt = Function.update a.peerAt r (a.peerAt r).resetMtu := by
  have hget := a.poolGetPacket_aside maxPacketSize
  have hsends := hs.poolGetPacket maxPacketSize
  have hlength : reply.length ≤ maxPacketSize := by
    rw [h.size]
    decide
  have hsize : (a.receivePacket reply).size = 1 := by
    rw [← NetPacket.length_wire, receivePacket_wire hlength, h.size]
  rw [receiveLogic_peerNotFound a addrB hlength (NetPacket.wire_received reply)
    (by rw [NetPacket.size_received, h.size]; exact one_pos) h.property h.verify, h.found]
  dsimp only
  generalize (a.poolGetPacket maxPacketSize).2 = x at hget hsends ⊢
  have hnot : ¬(x.peerAt r).connectionState ≠ .connected := by
    rw [hget.peerAt, h.connected]
    simp
  rw [onPeerNotFound, if_neg hnot, if_pos hsize, hget.peerAt]
  have hreset : (x.setPeer r (a.peerAt r).resetMtu).Sends := ⟨hsends.running, hsends.result⟩
  have hsent := (hreset.sendRaw (networkChanged (a.peerAt r)).wire addrB).trans
    (poolRecycle_aside _ (networkChanged (a.peerAt r)))
  refine ⟨?_, ?_, ?_⟩
  · refine hsent.sent.trans ?_
    change x.sent ++ _ = _
    rw [hget.sent]
  · exact hsent.peers.trans hget.peers
  · refine hsent.peerAt.trans ?_
    change Function.update x.peerAt r _ = _
    rw [hget.peerAt]

/-- A host that has a peer for the address sends the second reply. -/
theorem receive_networkChanged {addrA : NetAddress} {packet : NetPacket} (hm : Consistent b)
    (hs : b.Sends) (unstamped : packet.Unstamped .peerNotFound) (size : 2 < packet.size)
    (le : packet.size ≤ maxPacketSize) {s : PeerRef} (found : b.tryGetPeer addrA = some s)
    (connected : (b.peerAt s).connectionState = .connected) :
    ∃ second : NetPacket, second.Unstamped .peerNotFound ∧ second.size = 2 ∧ second.byte 1 = 1 ∧
      (b.receiveLogic packet.wire addrA).sent = b.sent ++ [⟨addrA, second.wire⟩] := by
  have hget := b.poolGetPacket_aside maxPacketSize
  have hsends := hs.poolGetPacket maxPacketSize
  have hlength : packet.wire.length ≤ maxPacketSize := by rwa [NetPacket.length_wire]
  have hsize : (b.receivePacket packet.wire).size = packet.size := by
    rw [← NetPacket.length_wire, receivePacket_wire hlength, NetPacket.length_wire]
  have hverify : packet.verify = true := unstamped.verify (by decide) (le_trans (by decide) size)
  rw [receiveLogic_peerNotFound b addrA hlength rfl (by omega) unstamped.property_eq hverify, found]
  dsimp only
  generalize (b.poolGetPacket maxPacketSize).2 = x at hget hsends ⊢
  generalize b.receivePacket packet.wire = packet' at hsize ⊢
  have hrecycle := x.poolRecycle_aside packet'
  have hx := hrecycle.consistent (hget.consistent hm)
  have hpool :=
    (hsends.poolRecycle packet').poolGetPacket (PacketProperty.peerNotFound.getHeaderSize + 1)
  have hgot := poolGetPacket_aside (x.poolRecycle packet')
    (PacketProperty.peerNotFound.getHeaderSize + 1)
  have hsecond := poolGetWithProperty_unstamped hx .peerNotFound 1 (by decide)
  have htwo : ((x.poolRecycle packet').poolGetWithProperty .peerNotFound 1).1.size = 2 :=
    poolGetPacket_size _ _
  have hnot : ¬(x.peerAt s).connectionState ≠ .connected := by
    rw [hget.peerAt, connected]
    simp
  rw [onPeerNotFound, if_neg hnot, if_neg (by omega), if_neg (by omega), if_pos (by omega)]
  have hbyte := NetPacket.byte_setByte
    ((x.poolRecycle packet').poolGetWithProperty .peerNotFound 1).1 1 1
  have hone : 1 < ((x.poolRecycle packet').poolGetWithProperty .peerNotFound 1).1.bufferSize := by
    have hle := ((x.poolRecycle packet').poolGetWithProperty .peerNotFound 1).1.size_le
    rw [htwo] at hle
    exact hle
  refine ⟨_, hsecond.write one_pos [1], htwo, hbyte hone, ?_⟩
  have hsent := (hpool.sendRaw (((x.poolRecycle packet').poolGetWithProperty .peerNotFound
    1).1.setByte 1 1).wire addrA).trans (poolRecycle_aside _
      (((x.poolRecycle packet').poolGetWithProperty .peerNotFound 1).1.setByte 1 1))
  refine hsent.sent.trans ?_
  change ((x.poolRecycle packet').poolGetPacket _).2.sent ++ _ = _
  rw [hgot.sent, hrecycle.sent, hget.sent]
  rfl

theorem receive_second {addrB : NetAddress} {packet : NetPacket}
    (unstamped : packet.Unstamped .peerNotFound) (size : packet.size = 2)
    (byte : packet.byte 1 = 1) (found : a.peers addrB.key = some r)
    (key : (a.peerAt r).endpoint.key = addrB.key)
    (connected : (a.peerAt r).connectionState = .connected) :
    ((a.receiveLogic packet.wire addrB).peerAt r).connectionState = .disconnected := by
  have hget := a.poolGetPacket_aside maxPacketSize
  have hlength : packet.wire.length ≤ maxPacketSize := by
    rw [NetPacket.length_wire, size]
    decide
  have hwire := receivePacket_wire (m := a) hlength
  have hsize : (a.receivePacket packet.wire).size = 2 := by
    rw [← size]
    exact NetPacket.size_eq_of_wire hwire
  have hbyte : (a.receivePacket packet.wire).byte 1 = 1 := by
    rw [← byte]
    exact NetPacket.byte_of_wire hwire (by omega)
  have hverify : packet.verify = true := unstamped.verify (by decide) (by rw [size]; decide)
  rw [receiveLogic_peerNotFound a addrB hlength rfl (by omega) unstamped.property_eq hverify,
    show a.tryGetPeer addrB = some r from found]
  dsimp only
  generalize (a.poolGetPacket maxPacketSize).2 = x at hget ⊢
  have hnot : ¬(x.peerAt r).connectionState ≠ .connected := by
    rw [hget.peerAt, connected]
    simp
  rw [onPeerNotFound, if_neg hnot, if_neg (by omega), if_pos ⟨hsize, hbyte⟩]
  refine (disconnectPeerForce_only .peerNotFound ?_ ?_).1
  · rw [hget.peerAt, hget.peers, key, found]
  · rw [hget.peerAt]
    exact (NetPeer.isConnected_iff _).mpr (.inr connected)

/-- One more logged datagram is all that was sent. -/
theorem sentTo_append {m' : NetManager} (h : m'.sent = m.sent ++ [⟨addr, bytes⟩]) :
    sentTo m m' addr = [bytes] := by
  rw [sentTo, h, List.drop_left]
  simp

theorem sentTo_self {m' : NetManager} (h : m'.sent = m.sent) : sentTo m m' addr = [] := by
  rw [sentTo, h, List.drop_length]
  rfl

variable {reply : Bytes} {addrA addrB : NetAddress}

theorem exchange_eq (first : FirstReply a r reply addrB) (hs : a.Sends) :
    exchange a b reply addrA addrB =
      ((a.receiveLogic reply addrB).deliver (sentTo b
          (b.receiveLogic (networkChanged (a.peerAt r)).wire addrA) addrA) addrB,
        b.receiveLogic (networkChanged (a.peerAt r)).wire addrA) := by
  rw [exchange, sentTo_append (receive_firstReply first hs).1]
  rfl

/-- A host without the peer does not answer the question, so the session is kept. -/
theorem exchange_missing (first : FirstReply a r reply addrB) (hs : a.Sends)
    (missing : b.tryGetPeer addrA = none) :
    ((exchange a b reply addrA addrB).1.peerAt r).connectionState = .connected := by
  have hquestion := networkChanged_unstamped (a.peerAt r)
  have hlength : (networkChanged (a.peerAt r)).wire.length ≤ maxPacketSize := by
    rw [NetPacket.length_wire]
    exact (by decide : 15 ≤ maxPacketSize)
  have hdropped := receiveLogic_peerNotFound b addrA hlength rfl
    (by decide : 0 < 15) hquestion.property_eq
    (hquestion.verify (by decide) (by decide : 1 ≤ 15))
  rw [missing] at hdropped
  have hsent : (b.receiveLogic (networkChanged (a.peerAt r)).wire addrA).sent = b.sent := by
    rw [hdropped]
    exact (b.poolGetPacket_aside maxPacketSize).sent
  rw [exchange_eq first hs, sentTo_self hsent]
  change ((a.receiveLogic reply addrB).peerAt r).connectionState = _
  rw [(receive_firstReply first hs).2.2, Function.update_self]
  exact first.connected

/-- A host with the peer answers the question, and the answer ends the session. -/
theorem exchange_found (ha : Consistent a) (hb : Consistent b)
    (first : FirstReply a r reply addrB) (hsa : a.Sends) (hsb : b.Sends) {s : PeerRef}
    (found : b.tryGetPeer addrA = some s)
    (connected : (b.peerAt s).connectionState = .connected) :
    ((exchange a b reply addrA addrB).1.peerAt r).connectionState = .disconnected := by
  have hquestion := networkChanged_unstamped (a.peerAt r)
  obtain ⟨second, unstamped, size, byte, hsent⟩ := receive_networkChanged hb hsb hquestion
    (by decide : 2 < 15) (by decide : 15 ≤ maxPacketSize) found connected
  obtain ⟨-, hpeers, hpeerAt⟩ := receive_firstReply first hsa
  have hr : (a.receiveLogic reply addrB).peerAt r = (a.peerAt r).resetMtu := by
    rw [hpeerAt, Function.update_self]
  rw [exchange_eq first hsa]
  change (((a.receiveLogic reply addrB).deliver _ addrB).peerAt r).connectionState = _
  rw [sentTo_append hsent]
  apply receive_second unstamped size byte
  · rw [hpeers]
    exact first.found
  · rw [hr]
    exact (ha.registered _ _ first.found).2
  · rw [hr]
    exact first.connected

/-- The exchange comes out the wrong way round, both for a peer that is lost and for one that is
not. -/
theorem resolves_iff (ha : Reachable Initial Step a) (hb : Reachable Initial Step b)
    (first : FirstReply a r reply addrB) (hsa : a.Sends) (hsb : b.Sends) :
    Resolves a b r reply addrA addrB ↔
      ∃ s, b.tryGetPeer addrA = some s ∧ (b.peerAt s).connectionState ≠ .connected := by
  constructor
  · intro h
    cases found : b.tryGetPeer addrA with
    | none =>
      have hkept := exchange_missing first hsa found
      rw [(h.lost found).1] at hkept
      cases hkept
    | some s =>
      refine ⟨s, rfl, fun connected => ?_⟩
      have hended := exchange_found (consistent_of_reachable ha) (consistent_of_reachable hb)
        first hsa hsb found connected
      rw [(h.kept s found connected).1] at hended
      cases hended
  · rintro ⟨s, found, connected⟩
    constructor
    · intro missing
      rw [found] at missing
      cases missing
    · intro s' found' connected'
      rw [found] at found'
      cases found'
      exact absurd connected' connected

theorem connectedClient_firstReply : FirstReply connectedClient 0 [14] ⟨2, 1, 2, 0⟩ :=
  ⟨by decide +kernel, by decide +kernel, rfl, by decide +kernel, by decide +kernel⟩

theorem connectedClient_sends : connectedClient.Sends := ⟨by decide +kernel, by decide +kernel⟩

theorem resolves_connectingClient :
    Resolves connectedClient connectingClient 0 [14] ⟨2, 1, 2, 0⟩ ⟨2, 1, 2, 0⟩ :=
  (resolves_iff connectedClient_reachable connectingClient_reachable connectedClient_firstReply
    connectedClient_sends ⟨by decide +kernel, by decide +kernel⟩).mpr
      ⟨0, by decide +kernel, by decide +kernel⟩

/-- Two hosts with a session lose it to one stale reply. -/
theorem not_always_resolves : ¬ ∀ (a b : NetManager) (r : PeerRef) (reply : Bytes)
    (addrA addrB : NetAddress), Reachable Initial Step a → Reachable Initial Step b →
    FirstReply a r reply addrB → a.Sends → b.Sends → Resolves a b r reply addrA addrB := by
  intro h
  have hresolves := h connectedClient connectedClient 0 [14] ⟨2, 1, 2, 0⟩ ⟨2, 1, 2, 0⟩
    connectedClient_reachable connectedClient_reachable connectedClient_firstReply
    connectedClient_sends connectedClient_sends
  have hended := exchange_found (s := 0) (consistent_of_reachable connectedClient_reachable)
    (consistent_of_reachable connectedClient_reachable) connectedClient_firstReply
    connectedClient_sends connectedClient_sends connectedClient_firstReply.found
    connectedClient_firstReply.connected
  rw [(hresolves.kept 0 connectedClient_firstReply.found
    connectedClient_firstReply.connected).1] at hended
  cases hended

end NetManager

end LiteNet.Manager
