import LiteNet.Manager.Send

/-! # What a send touches

An unreachable host may cost its peer the connection. Apart from that a send only
logs its datagram.
-/

namespace LiteNet.Manager
open Library Wire Channels

namespace NetManager

theorem poolRecycle_frame (m : NetManager) (packet : NetPacket) :
    (m.poolRecycle packet).peerAt = m.peerAt ∧ (m.poolRecycle packet).sent = m.sent ∧
      (m.poolRecycle packet).disconnectTimeout = m.disconnectTimeout := by
  rw [poolRecycle]
  split <;> exact ⟨rfl, rfl, rfl⟩

/-- At most the state of a peer differs. -/
def SameButState (p p' : NetPeer) : Prop := ∃ s, p' = { p with connectionState := s }

theorem shutdownForce_sameButState (p : NetPeer) : SameButState p p.shutdownForce.1 := by
  rw [NetPeer.shutdownForce]
  split <;> exact ⟨_, rfl⟩

theorem disconnectPeerForce_frame (m : NetManager) (address : NetAddress)
    (reason : DisconnectReason) (code : ℕ) (r : PeerRef) :
    SameButState (m.peerAt r) ((m.disconnectPeerForce address reason code none).peerAt r) ∧
      (m.disconnectPeerForce address reason code none).sent = m.sent := by
  rw [disconnectPeerForce]
  split
  · exact ⟨⟨_, rfl⟩, rfl⟩
  · next q hq =>
    have hpeer : SameButState (m.peerAt r)
        ((m.setPeer q (m.peerAt q).shutdownForce.1).peerAt r) := by
      by_cases hr : r = q
      · subst hr
        rw [setPeer_self]
        exact shutdownForce_sameButState _
      · rw [setPeer_of_ne _ hr]
        exact ⟨_, rfl⟩
    rw [noteShutdown]
    split <;> exact ⟨hpeer, rfl⟩

/-- A send is logged, and touches no more than the state of a peer. -/
theorem sendRaw_frame (m : NetManager) (bytes : Bytes) (endpoint : NetAddress) (r : PeerRef) :
    SameButState (m.peerAt r) ((m.sendRaw bytes endpoint).1.peerAt r) ∧
      (m.sendRaw bytes endpoint).1.sent = m.sent ++ [⟨endpoint, bytes⟩] := by
  obtain ⟨results, h | ⟨reason, code, h⟩⟩ := m.sendRaw_cases bytes endpoint
  · rw [h]
    exact ⟨⟨_, rfl⟩, rfl⟩
  · rw [h, unreachable]
    split
    · exact disconnectPeerForce_frame _ endpoint reason code r
    · exact ⟨⟨_, rfl⟩, rfl⟩

theorem sendRawAndRecycle_frame (m : NetManager) (packet : NetPacket) (endpoint : NetAddress)
    (r : PeerRef) :
    SameButState (m.peerAt r) ((m.sendRawAndRecycle packet endpoint).1.peerAt r) ∧
      (m.sendRawAndRecycle packet endpoint).1.sent = m.sent ++ [⟨endpoint, packet.wire⟩] := by
  obtain ⟨hpeer, hsent, -⟩ := (m.sendRaw packet.wire endpoint).1.poolRecycle_frame packet
  rw [sendRawAndRecycle, hpeer, hsent]
  exact m.sendRaw_frame packet.wire endpoint r

theorem poolGetPacket_frame (m : NetManager) (size : ℕ) :
    (m.poolGetPacket size).2.peerAt = m.peerAt ∧ (m.poolGetPacket size).2.sent = m.sent ∧
      (m.poolGetPacket size).1.size = size := by
  rw [poolGetPacket]
  split <;> exact ⟨rfl, rfl, rfl⟩

/-- Where unreachable hosts cost nothing, a send leaves the peers and the settings alone. -/
theorem sendRaw_steady {m : NetManager} (hm : m.disconnectOnUnreachable = false) (bytes : Bytes)
    (endpoint : NetAddress) :
    (m.sendRaw bytes endpoint).1.peerAt = m.peerAt ∧
      (m.sendRaw bytes endpoint).1.disconnectOnUnreachable = false ∧
      (m.sendRaw bytes endpoint).1.pingInterval = m.pingInterval := by
  obtain ⟨results, h | ⟨reason, code, h⟩⟩ := m.sendRaw_cases bytes endpoint
  · rw [h]
    exact ⟨rfl, hm, rfl⟩
  · rw [h, unreachable]
    split
    · next hcost => exact absurd (hm.symm.trans hcost) Bool.false_ne_true
    · exact ⟨rfl, hm, rfl⟩

end NetManager

end LiteNet.Manager
