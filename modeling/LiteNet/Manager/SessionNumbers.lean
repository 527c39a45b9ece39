import LiteNet.Manager.PingAnswers
import LiteNet.Manager.ShutdownHandshake
import LiteNet.Manager.StalePeers

/-! # The connection number in the packets of a session

Packets of the user, acks and answered MTU checks are stamped with the number of the
session. The ping, the pong, the buffer for merged packets and MTU checks are not, so
they carry it in sessions with the number 0 only.
-/

namespace LiteNet.Manager
open Library Wire Channels Relation

/-- The kinds of the packets that belong to a session. -/
def PacketProperty.OfSession (property : PacketProperty) : Prop :=
  property = .unreliable ∨ property = .channeled ∨ property = .ack ∨ property = .merged ∨
    property = .ping ∨ property = .pong ∨ property = .mtuCheck ∨ property = .mtuOk

/-- A datagram carries the number `n`, so that a remote peer with this number does not discard the
packet it arrives in. -/
structure Datagram.Carries (n : UInt8) (d : Datagram) : Prop where
  number : headerNumber d.bytes = n
  passes : ∀ (remote : NetPeer) (packet : NetPacket), remote.connectNumber = n →
    packet.wire = d.bytes → 1 ≤ packet.size → packet.connectionNumber = remote.connectNumber

theorem Datagram.carries_iff {n : UInt8} {d : Datagram} :
    d.Carries n ↔ headerNumber d.bytes = n := by
  constructor
  · exact fun h => h.number
  · intro h
    refine ⟨h, fun remote packet hremote hwire hsize => ?_⟩
    rw [hremote, ← h, ← hwire, NetPacket.headerNumber_wire packet hsize]

/-- With the number 0 a packet that is not stamped looks like one that is. -/
theorem SessionDatagram.zero {d : Datagram} (h : SessionDatagram 0 d)
    (hd : PacketProperty.OfSession (headerProperty d.bytes)) : headerNumber d.bytes = 0 := by
  rw [SessionDatagram] at h
  rcases hd with hp | hp | hp | hp | hp | hp | hp | hp <;> rw [hp] at h <;> exact h

namespace NetManager

variable {m : NetManager} {r : PeerRef}

/-- Every packet of the session that a step of the peer `r` sends carries the number of `r`. -/
def CarriesNumber (m : NetManager) (r : PeerRef) (step : PeerStep) : Prop :=
  ∀ ds, (peerStep r m step).sent = m.sent ++ ds → ∀ d ∈ ds,
    PacketProperty.OfSession (headerProperty d.bytes) →
      d.Carries (m.peerAt r).connectNumber

/-- A scope in which a peer with the number `n` sends what its session sends. -/
def sessionScope (n : UInt8) : Scope where
  emits := fun _ d => SessionDatagram n d
  accepts := fun _ _ => False
  early := True
  closes := True
  registers := False
  opens := fun _ => False
  answers := fun _ => False
  orderly := True
  elapses := fun _ => True

theorem sessionScope_serving (n : UInt8) : (sessionScope n).Serving n where
  closes := trivial
  accepts := fun _ _ => id
  emits := fun _ _ => id

theorem peerStep_changes (hm : Consistent m) (hr : r < m.peerCount)
    (found : m.tryGetPeer (m.peerAt r).endpoint = some r) (step : PeerStep) :
    Changes (sessionScope (m.peerAt r).connectNumber) m (peerStep r m step) := by
  cases step with
  | receive packet =>
    exact processPacket_changes (sessionScope_serving _) id ⟨⟨hm, hr, rfl⟩, found⟩
      (fun _ _ _ => trivial)
  | update deltaTime =>
    exact update_changes (sessionScope_serving _) ⟨hm, hr, rfl⟩ trivial deltaTime

/-- Some ping is newer than the one that was answered last. -/
theorem exists_newer (s : ℕ) (hs : s < 65536) :
    ∃ t < 65536, 0 < relativeSequenceNumber (t : ℕ) (s : ℕ) := by
  have hhalf : (halfMaxSequence : ℤ) = 16384 := rfl
  by_cases hlast : s = 65535
  · refine ⟨32768, by decide, ?_⟩
    rw [hlast]
    decide
  · refine ⟨s + 1, by omega, ?_⟩
    rw [relativeSequenceNumber_eq, hhalf, serialDistance_of_near (by omega) (by omega)]
    omega

/-- A ping with the number of the session. -/
def numberedPing (n : UInt8) (sequence : ℕ) : NetPacket :=
  ((NetPacket.new .ping 0 NetPacket.three_le_ping).setConnectionNumber n).setSequence sequence

theorem receive_ping (hm : Consistent m) (hr : r < m.peerCount)
    (connected : (m.peerAt r).connectionState = .connected)
    (number : (m.peerAt r).connectNumber.toNat < maxConnectionNumber) :
    ∃ packet pong, (peerStep r m (.receive packet)).sent = m.sent ++ [pong] ∧
      headerProperty pong.bytes = .pong ∧ headerNumber pong.bytes = 0 := by
  have hw := hm.wellFormed r hr
  obtain ⟨t, ht, hnewer⟩ := exists_newer (m.peerAt r).pongPacket.sequence
    (NetPacket.sequence_lt _)
  have hping : (numberedPing (m.peerAt r).connectNumber t).property = .ping := by
    rw [numberedPing, NetPacket.property_setSequence, NetPacket.property_setConnectionNumber,
      NetPacket.new, NetPacket.property_setProperty]
  have hnumber : (numberedPing (m.peerAt r).connectNumber t).connectionNumber =
      (m.peerAt r).connectNumber := by
    rw [numberedPing, NetPacket.setSequence, NetPacket.setValueAt,
      NetPacket.connectionNumber_write _ _ _ one_pos, NetPacket.connectionNumber_setConnectionNumber,
      NetPacket.and_three_of_lt number]
  have hsequence : (numberedPing (m.peerAt r).connectNumber t).sequence = t := by
    rw [numberedPing, NetPacket.sequence_setSequence, Nat.mod_eq_of_lt ht]
  generalize numberedPing (m.peerAt r).connectNumber t = packet at hping hnumber hsequence
  have hself := m.setPeer_self r { m.peerAt r with timeSinceLastPacket := 0 }
  have hsent := (processPing_sent (b := m.setPeer r { m.peerAt r with timeSinceLastPacket := 0 })
    (s := r) (by rw [hself, hsequence]; exact hnewer : 0 < relativeSequenceNumber packet.sequence
      ((m.setPeer r { m.peerAt r with timeSinceLastPacket := 0 }).peerAt
        r).pongPacket.sequence)).1
  rw [← processPacket_ping connected hnumber hping] at hsent
  have hpong : (nextPong (m.setPeer r { m.peerAt r with timeSinceLastPacket := 0 }) r
      packet).Unstamped .pong := by
    rw [nextPong, hself]
    exact (hw.pong.setValueAt _ three_pos _).setSequence _
  exact ⟨packet, _, hsent, hpong.headerProperty, hpong.headerNumber⟩

/-- All steps of a connected peer keep to its number exactly if the number is 0. -/
theorem carriesNumber_iff (h : Reachable Fresh Step m) (hr : r < m.peerCount)
    (connected : (m.peerAt r).connectionState = .connected)
    (number : (m.peerAt r).connectNumber.toNat < maxConnectionNumber) :
    (∀ step, CarriesNumber m r step) ↔ (m.peerAt r).connectNumber = 0 := by
  obtain ⟨hm, -, hlive⟩ := Threads.live_of_reachable h
  have found : m.tryGetPeer (m.peerAt r).endpoint = some r :=
    hlive r hr ((NetPeer.isConnected_iff _).mpr (.inr connected))
  constructor
  · intro hall
    obtain ⟨packet, pong, hsent, hproperty, hzero⟩ := receive_ping hm hr connected number
    have hcarries := hall (.receive packet) [pong] hsent pong List.mem_cons_self
      (.inr (.inr (.inr (.inr (.inr (.inl hproperty))))))
    exact hcarries.number.symm.trans hzero
  · intro hzero step ds hds d hd hkind
    have hchanges := peerStep_changes hm hr found step
    rw [hzero] at hchanges ⊢
    obtain ⟨ds', hds', hsession⟩ := Changes.sent (E := SessionDatagram 0)
      (fun _ _ hemits => hemits) hchanges
    cases List.append_cancel_left (hds.symm.trans hds')
    exact Datagram.carries_iff.mpr (SessionDatagram.zero (hsession d hd) hkind)

theorem carriesNumber_iff_connectedClient : (connectedClient.peerAt 0).connectNumber = 0 ∧
    ∀ step, CarriesNumber connectedClient 0 step := by
  have hreachable : Reachable Fresh Step connectedClient :=
    ((Reachable.initial (fresh_new _ _ _)).tail ⟨.connect _ _ _, trivial, rfl⟩).tail
      ⟨.receive _ _, show _ ≤ maxPacketSize by decide +kernel, rfl⟩
  have hzero : (connectedClient.peerAt 0).connectNumber = 0 := by decide +kernel
  exact ⟨hzero, (carriesNumber_iff hreachable (by decide +kernel) (by decide +kernel)
    (by decide +kernel)).mpr hzero⟩

/-- A client whose request was accepted with the number 1. -/
def renumberedClient : NetManager :=
  ((NetManager.new (.const 5) (.const 0) (.const .ok)).act (.connect ⟨2, 1, 2, 0⟩ [] 0)).act
    (.receive (NetConnectAcceptPacket.make 5 1 0).wire ⟨2, 1, 2, 0⟩)

/-- Its pong carries the number 0. -/
theorem not_always_carriesNumber : ¬ ∀ (m : NetManager) (r : PeerRef), Reachable Fresh Step m →
    r < m.peerCount → (m.peerAt r).connectionState = .connected →
    (m.peerAt r).connectNumber.toNat < maxConnectionNumber → ∀ step, CarriesNumber m r step := by
  intro h
  have hreachable : Reachable Fresh Step renumberedClient :=
    ((Reachable.initial (fresh_new _ _ _)).tail ⟨.connect _ _ _, trivial, rfl⟩).tail
      ⟨.receive _ _, show _ ≤ maxPacketSize by decide +kernel, rfl⟩
  have hconnected : (renumberedClient.peerAt 0).connectionState = .connected := by decide +kernel
  have hnumber : (renumberedClient.peerAt 0).connectNumber.toNat < maxConnectionNumber := by
    decide +kernel
  have hr : 0 < renumberedClient.peerCount := by decide +kernel
  obtain ⟨packet, pong, hsent, hproperty, hzero⟩ :=
    receive_ping (m := renumberedClient) (r := 0) (Threads.live_of_reachable hreachable).1 hr
      hconnected hnumber
  have hcarries := h renumberedClient 0 hreachable hr hconnected hnumber (.receive packet) [pong]
    hsent pong List.mem_cons_self (.inr (.inr (.inr (.inr (.inr (.inl hproperty))))))
  have hone := hzero.symm.trans hcarries.number
  revert hone
  decide +kernel

end NetManager

end LiteNet.Manager
