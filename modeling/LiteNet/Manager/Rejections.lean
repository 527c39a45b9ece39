import LiteNet.Manager.PendingRequests
import LiteNet.Manager.SendFrame
import LiteNet.Wire.HandshakeRoundTrip

/-! # Rejections on the way back

A client takes a disconnect packet for the answer to its request if the packet has
the connect time and the number of the request. A forced rejection is built from a
cleared packet that is never given the time.
-/

namespace LiteNet.Wire.NetPacket

open Library

variable {p : NetPacket} {c : PacketProperty}

theorem Unstamped.resize (h : p.Unstamped c) {size : ℕ} (hs : 1 ≤ size) :
    (p.resize size).Unstamped c where
  byte_eq := by rw [byte_resize _ _ p.bufferSize_pos, h.byte_eq]
  size_pos := hs

/-- Giving a packet its own property again leaves it as it is. -/
theorem Unstamped.setProperty (h : p.Unstamped c) : (p.setProperty c).Unstamped c where
  byte_eq := by
    have hbits : ∀ c : PacketProperty, UInt8.ofNat c.code &&& (0xE0 : UInt8) ||| UInt8.ofNat c.code =
        UInt8.ofNat c.code := by
      intro c
      cases c <;> decide
    rw [NetPacket.setProperty, byte_setByte _ _ _ p.bufferSize_pos, h.byte_eq, hbits]
  size_pos := h.size_pos

theorem getValueAt_of_zero (h : ∀ i, p.byte i = 0) (position width : ℕ) :
    p.getValueAt position width = 0 := by
  have hdata : p.data = List.replicate p.data.length 0 := by
    apply List.ext_getElem?
    intro i
    have hi := h i
    rw [byte, List.getD_eq_getElem?_getD] at hi
    rw [List.getElem?_replicate]
    split
    · next hlt =>
      rw [List.getElem?_eq_getElem hlt] at hi ⊢
      exact congrArg some hi
    · next hge => rw [List.getElem?_eq_none (not_lt.mp hge)]
  rw [getValueAt, hdata]
  exact readLE_replicate_zero _ _ _

/-- A disconnect packet for a session, as its receiver reads it. -/
structure Disconnects (p : NetPacket) (number : UInt8) (time : Int64) (payload : Bytes) : Prop where
  property : p.property = .disconnect
  verify : p.verify = true
  number : p.connectionNumber = number
  size : p.size = 9 + payload.length
  time : p.getInt64 1 = time
  payload : readBytes p.data 9 payload.length = payload

variable {number : UInt8} {time : Int64} {payload : Bytes}

/-- The additional data is written behind the header. -/
theorem Disconnects.write (property : p.property = .disconnect) (verify : p.verify = true)
    (hnumber : p.connectionNumber = number) (htime : p.getInt64 1 = time)
    (size : p.size = 9 + payload.length) :
    (p.write 9 payload).Disconnects number time payload where
  property := (property_write _ 9 _ (by decide)).trans property
  verify := by
    rw [← verify]
    exact verify_congr rfl (byte_write_of_disjoint _ _ _ _ (.inl (by decide)))
  number := (connectionNumber_write _ 9 _ (by decide)).trans hnumber
  size := size
  time := by
    rw [getInt64, getValueAt_write_of_disjoint _ _ _ (.inl (by decide))]
    exact htime
  payload := by
    apply readBytes_writeBytes_self
    rw [← size]
    exact p.size_le

/-- Whatever arrives with the same bytes is read the same. -/
theorem Disconnects.of_wire {q : NetPacket} (h : p.Disconnects number time payload)
    (hwire : q.wire = p.wire) : q.Disconnects number time payload where
  property := (property_of_wire hwire (by rw [h.size]; omega)).trans h.property
  verify := (verify_of_wire hwire (by rw [h.size]; omega)).trans h.verify
  number := (connectionNumber_of_wire hwire (by rw [h.size]; omega)).trans h.number
  size := (size_eq_of_wire hwire).trans h.size
  time := by
    rw [getInt64, getValueAt_of_wire hwire (by rw [h.size]; omega)]
    exact h.time
  payload := (readBytes_of_wire hwire (by rw [h.size])).trans h.payload

end LiteNet.Wire.NetPacket

namespace LiteNet.Manager
open Library Wire Channels Relation

/-- What is left of the reject data behind an offset, which must be there. -/
structure Supplies (rejectData : Option Bytes) (offset size : ℕ) (payload : Bytes) : Prop where
  data : (rejectData.elim [] (readBytes · offset size)) = payload
  length : payload.length = size

namespace NetManager

variable {a b m : NetManager} {r : PeerRef} {q : RequestRef}
  {rejectData : Option Bytes} {offset size : ℕ} {payload : Bytes}

/-- A blank packet that is given the number and the time. -/
theorem disconnects_stamped {blank : NetPacket} (h : blank.Unstamped .disconnect) {number : UInt8}
    (hn : number.toNat < maxConnectionNumber) (time : Int64)
    (size : blank.size = 9 + payload.length) :
    (((blank.setConnectionNumber number).setInt64 time 1).write 9 payload).Disconnects number time
      payload := by
  apply NetPacket.Disconnects.write
  · refine (NetPacket.property_write _ 1 _ one_pos).trans ?_
    rw [NetPacket.property_setConnectionNumber, h.property_eq]
  · have hbyte : ((blank.setConnectionNumber number).setInt64 time 1).byte 0 =
        (blank.setConnectionNumber number).byte 0 :=
      NetPacket.byte_write_of_disjoint _ _ _ _ (.inl one_pos)
    have hsize : ((blank.setConnectionNumber number).setInt64 time 1).size =
        (blank.setConnectionNumber number).size := rfl
    rw [NetPacket.verify_congr hsize hbyte, NetPacket.verify_setConnectionNumber _ _ hn]
    exact h.verify (by decide) (by rw [size]; exact Nat.le_add_right _ _)
  · refine (NetPacket.connectionNumber_write _ 1 _ one_pos).trans ?_
    rw [NetPacket.connectionNumber_setConnectionNumber, NetPacket.and_three_of_lt hn]
  · apply NetPacket.getInt64_setInt64
    have hle := (blank.setConnectionNumber number).size_le
    rw [NetPacket.size_setConnectionNumber, size] at hle
    exact le_trans (by omega) hle
  · exact size

theorem fillShutdownPacket_disconnects (p : NetPeer)
    (shutdown : p.shutdownPacket.Unstamped .disconnect)
    (number : p.connectNumber.toNat < maxConnectionNumber)
    (data : Supplies rejectData offset size payload) (fits : 9 + size < possibleMtu.getD 0 0) :
    (p.fillShutdownPacket rejectData offset size).Disconnects p.connectNumber p.connectTime
      payload := by
  have hheader : PacketProperty.disconnect.getHeaderSize = 9 := rfl
  have hblank := (shutdown.resize (Nat.le_add_left_of_le (by decide) :
    1 ≤ size + PacketProperty.disconnect.getHeaderSize)).setProperty
  have hlength : size + PacketProperty.disconnect.getHeaderSize = 9 + payload.length := by
    rw [hheader, data.length, add_comm]
  have hstamped := disconnects_stamped hblank number p.connectTime hlength
  cases rejectData with
  | none =>
    have hnil : payload = [] := data.data.symm
    rw [NetPeer.fillShutdownPacket, ite_self]
    rw [hnil] at hstamped ⊢
    exact hstamped
  | some source =>
    rw [NetPeer.fillShutdownPacket]
    split
    · next hle =>
      have hsize : possibleMtu.getD 0 0 ≤ size + PacketProperty.disconnect.getHeaderSize := hle
      rw [hheader] at hsize
      omega
    · have hcopied : readBytes source offset size = payload := data.data
      change (NetPacket.write _ 9 (readBytes source offset size)).Disconnects _ _ _
      rw [hcopied]
      exact hstamped

/-- The packet of a forced rejection has no connect time. -/
theorem forced_disconnects (hm : Consistent m) {number : UInt8}
    (hn : number.toNat < maxConnectionNumber) (length : payload.length = size) :
    (((m.poolGetWithProperty .disconnect size).1.setConnectionNumber number).write 9
      payload).Disconnects number 0 payload := by
  have hsize : (m.poolGetWithProperty .disconnect size).1.size = 9 + payload.length := by
    rw [length]
    exact poolGetPacket_size _ _
  have hblank := poolGetWithProperty_unstamped hm .disconnect size (Nat.le_add_right_of_le (by decide))
  apply NetPacket.Disconnects.write
  · rw [NetPacket.property_setConnectionNumber, hblank.property_eq]
  · rw [NetPacket.verify_setConnectionNumber _ _ hn]
    exact hblank.verify (by decide) (by rw [hsize]; exact Nat.le_add_right _ _)
  · rw [NetPacket.connectionNumber_setConnectionNumber, NetPacket.and_three_of_lt hn]
  · have hset : ∀ (p : NetPacket) b, (p.setByte 0 b).getValueAt 1 8 = p.getValueAt 1 8 :=
      fun p b => p.getValueAt_write_of_disjoint 0 [b] (.inr le_rfl)
    rw [NetPacket.getInt64, NetPacket.setConnectionNumber, hset, poolGetWithProperty,
      NetPacket.setProperty, hset, NetPacket.getValueAt_of_zero (poolGetPacket_zero hm.pool _)]
    rfl
  · exact hsize

section Sent

variable (request : NetConnectionRequest)

theorem rejectForce_sent (hm : Consistent m)
    (number : request.internalPacket.connectionNumber.toNat < maxConnectionNumber)
    (data : Supplies rejectData offset size payload) (fits : 9 + size < possibleMtu.getD 0 0) :
    (m.rejectForce request rejectData offset size).sent = m.sent ∨
      ∃ packet : NetPacket,
        (m.rejectForce request rejectData offset size).sent =
          m.sent ++ [⟨request.remoteEndpoint, packet.wire⟩] ∧
        packet.Disconnects request.internalPacket.connectionNumber 0 payload := by
  cases rejectData with
  | none => exact .inl rfl
  | some source =>
    rw [rejectForce]
    split
    · exact .inl rfl
    · refine .inr ⟨_, ?_, forced_disconnects hm number data.length⟩
      have hcopied : readBytes source offset size = payload := data.data
      have hsize : ¬ possibleMtu.getD 0 0 ≤ ((m.poolGetWithProperty .disconnect
          size).1.setConnectionNumber request.internalPacket.connectionNumber).size := by
        have heq : ((m.poolGetWithProperty .disconnect size).1.setConnectionNumber
            request.internalPacket.connectionNumber).size = 9 + size := poolGetPacket_size _ _
        rw [heq]
        exact not_le.mpr fits
      dsimp only
      rw [if_neg hsize, hcopied, (sendRawAndRecycle_frame _ _ _ 0).2]
      exact congrArg (· ++ _) (poolGetPacket_aside m _).sent

theorem newRejected_sent
    (number : request.internalPacket.connectionNumber.toNat < maxConnectionNumber)
    (data : Supplies rejectData offset size payload) (fits : 9 + size < possibleMtu.getD 0 0) :
    ∃ packet : NetPacket,
      (m.newRejected request rejectData offset size).sent =
        m.sent ++ [⟨request.remoteEndpoint, packet.wire⟩] ∧
      packet.Disconnects request.internalPacket.connectionNumber
        request.internalPacket.connectionTime payload := by
  have hnumbered := Numbered.getNextPeerId m
  rw [newRejected, ← hnumbered.peerCount, shutdown_newPeer _ rfl, (sendRaw_frame _ _ _ 0).2]
  have hpacket := fillShutdownPacket_disconnects
    { NetPeer.new m.channelsCount request.remoteEndpoint m.getNextPeerId.1 with
      connectTime := request.internalPacket.connectionTime
      connectNumber := request.internalPacket.connectionNumber }
    (NetPacket.new_unstamped _ _ _) number data fits
  refine ⟨_, ?_, hpacket⟩
  exact congrArg (· ++ _) hnumbered.sent

/-- The only datagram of a rejection is a disconnect packet. It has the connect time of the request
unless the rejection is forced. -/
theorem reject_sent (hm : Consistent m) (hq : q < m.requestCount)
    (unused : (m.requestAt q).used = false) (force : Bool)
    (data : Supplies rejectData offset size payload) (fits : 9 + size < possibleMtu.getD 0 0) :
    (m.reject q rejectData offset size force).sent = m.sent ∨
      ∃ packet : NetPacket,
        (m.reject q rejectData offset size force).sent =
          m.sent ++ [⟨(m.requestAt q).remoteEndpoint, packet.wire⟩] ∧
        packet.Disconnects (m.requestAt q).internalPacket.connectionNumber
          (if force then 0 else (m.requestAt q).internalPacket.connectionTime) payload := by
  have hnumber := hm.books.number q hq
  have hself : ∀ result, (m.activate q result).requestAt q =
      { m.requestAt q with used := true, result := result } := fun _ => Function.update_self ..
  have hunused : ¬ (m.requestAt q).used = true := by
    rw [unused]
    decide
  cases force with
  | true =>
    have hm' := Changes.consistent (activate_changes (S := fullScope) trivial m (q := q) trivial
      .rejectForce) hm
    have heq : (m.reject q rejectData offset size true).sent =
        ((m.activate q .rejectForce).rejectForce { m.requestAt q with
          used := true, result := .rejectForce } rejectData offset size).sent := by
      rw [reject, if_neg hunused, if_pos rfl, onConnectionSolved, hself]
      rfl
    rw [heq]
    exact rejectForce_sent _ hm' hnumber data fits
  | false =>
    have heq : (m.reject q rejectData offset size false).sent =
        if (m.peers (m.requestAt q).remoteEndpoint.key).isSome then m.sent
        else ((m.activate q .reject).newRejected { m.requestAt q with
          used := true, result := .reject } rejectData offset size).sent := by
      rw [reject, if_neg hunused, if_neg Bool.false_ne_true, onConnectionSolved, hself]
      dsimp only
      rw [if_neg (by decide)]
      by_cases hpeer : (m.peers (m.requestAt q).remoteEndpoint.key).isSome = true
      · rw [if_pos hpeer]
        exact congrArg (fun x : NetManager × Option PeerRef => x.1.sent) (if_pos hpeer)
      · rw [if_neg hpeer]
        refine (congrArg (fun x : NetManager × Option PeerRef => x.1.sent) (if_neg hpeer)).trans ?_
        rw [if_pos rfl, addPeer_eq]
    rw [heq]
    split
    · exact .inl rfl
    · exact .inr (newRejected_sent _ hnumber data fits)

end Sent

section Received

variable {packet : NetPacket} {number : UInt8} {time : Int64} {bytes : Bytes} {addr : NetAddress}

theorem processDisconnect_reject {p : NetPeer} (outgoing : p.connectionState = .outgoing)
    (h : packet.Disconnects number time payload) :
    p.processDisconnect packet = .reject ↔ time = p.connectTime ∧ number = p.connectNumber := by
  have hsize : 9 ≤ packet.size := by
    rw [h.size]
    exact Nat.le_add_right _ _
  have hc : ¬ p.connectionState = .connected := by
    rw [outgoing]
    decide
  rw [NetPeer.processDisconnect, h.time, h.number, if_neg hc,
    (NetPeer.isConnected_iff p).mpr (.inl outgoing), decide_eq_true hsize]
  by_cases heq : time = p.connectTime ∧ number = p.connectNumber
  · rw [if_pos (by simp [heq])]
    exact ⟨fun _ => heq, fun _ => rfl⟩
  · rw [if_neg (by simpa using heq)]
    exact ⟨nofun, fun h => absurd h heq⟩

theorem receiveLogic_disconnect (h : packet.Disconnects number time payload)
    (hwire : (m.receivePacket bytes).wire = packet.wire) :
    m.receiveLogic bytes addr = (m.poolGetPacket maxPacketSize).2.onDisconnect
      (m.tryGetPeer addr) (m.receivePacket bytes) addr := by
  have hreceived := h.of_wire hwire
  rw [receiveLogic]
  change (m.poolGetPacket maxPacketSize).2.onMessageReceived (m.receivePacket bytes) addr = _
  rw [onMessageReceived, hreceived.verify]
  dsimp only
  rw [hreceived.property, tryGetPeer_poolGetPacket]
  rfl

/-- The event of a rejection. -/
structure Announces (r : PeerRef) (payload : Bytes) (e : NetEvent) : Prop where
  type : e.type = .disconnect
  peer : e.peer = some r
  reason : e.disconnectReason = .connectionRejected
  payload : ∃ reader, e.reader = some reader ∧ reader.rest = payload

/-- The event that a disconnect packet is read from. -/
def rejected (r : PeerRef) (packet : NetPacket) : NetEvent where
  type := .disconnect
  peer := some r
  disconnectReason := .connectionRejected
  readerSource := some packet
  reader := some ⟨packet.data, packet.size, packet.getHeaderSize⟩

theorem announces_rejected (h : packet.Disconnects number time payload) (r : PeerRef) :
    Announces r payload (rejected r packet) := by
  refine ⟨rfl, rfl, rfl, _, rfl, ?_⟩
  have hheader : packet.getHeaderSize = 9 := NetPacket.getHeaderSize_of_property h.property (by decide)
  rw [NetDataReader.rest]
  dsimp only
  rw [hheader, h.size, Nat.add_sub_cancel_left]
  exact h.payload

theorem disconnectPeerForce_outgoing (found : m.tryGetPeer addr = some r)
    (outgoing : (m.peerAt r).connectionState = .outgoing) :
    m.disconnectPeerForce addr .connectionRejected 0 (some packet) =
      (m.setPeer r { m.peerAt r with connectionState := .disconnected }).pushEvent
        (rejected r packet) := by
  rw [disconnectPeerForce, found]
  dsimp only
  rw [NetPeer.shutdownForce, outgoing]
  rfl

/-- The answer to a disconnect packet does not end a session. -/
theorem shutdownOk_events (m : NetManager) (addr : NetAddress)
    (h : ∀ q, m.tryGetPeer addr = some q → (m.peerAt q).isConnected = false) :
    ∃ notes, (((m.poolGetWithProperty .shutdownOk 0).2.sendRawAndRecycle
      (m.poolGetWithProperty .shutdownOk 0).1 addr).1).events = m.events ++ notes ∧
        ∀ n ∈ notes, ∀ r, ¬ n.About r := by
  have hget : Aside m (m.poolGetWithProperty .shutdownOk 0).2 := poolGetPacket_aside m _
  generalize (m.poolGetWithProperty .shutdownOk 0).2 = x at hget ⊢
  generalize (m.poolGetWithProperty .shutdownOk 0).1 = packet
  obtain ⟨notes, habout, -, hsent⟩ := sendRaw_inactive x packet.wire addr (fun q hq => by
    rw [hget.peerAt]
    rw [tryGetPeer, hget.peers] at hq
    exact h q hq)
  refine ⟨notes, ?_, habout⟩
  rw [sendRawAndRecycle]
  refine ((poolRecycle_aside _ packet).events.trans hsent.events).trans ?_
  exact congrArg (· ++ notes) hget.events

/-- A rejection ends the session with its event, and whatever the answer runs into is about no
session. -/
theorem onDisconnect_reject (found : m.tryGetPeer addr = some r)
    (key : (m.peerAt r).endpoint.key = addr.key)
    (outgoing : (m.peerAt r).connectionState = .outgoing)
    (h : packet.Disconnects number time payload)
    (result : (m.peerAt r).processDisconnect packet = .reject) :
    ∃ e notes, (m.onDisconnect (some r) packet addr).events = m.events ++ e :: notes ∧
      Announces r payload e ∧ ∀ n ∈ notes, ∀ r, ¬ n.About r := by
  have hfound : m.tryGetPeer (m.peerAt r).endpoint = some r := by
    rw [tryGetPeer, key]
    exact found
  have hdisconnect : m.onDisconnect (some r) packet addr =
      let ended := (m.setPeer r { m.peerAt r with connectionState := .disconnected }).pushEvent
        (rejected r packet)
      ((ended.poolGetWithProperty .shutdownOk 0).2.sendRawAndRecycle
        (ended.poolGetWithProperty .shutdownOk 0).1 addr).1 := by
    rw [onDisconnect, result, disconnectPeerForce_outgoing hfound outgoing]
  have hself := m.setPeer_self r { m.peerAt r with connectionState := .disconnected }
  obtain ⟨notes, hevents, habout⟩ := shutdownOk_events
    ((m.setPeer r { m.peerAt r with connectionState := .disconnected }).pushEvent
      (rejected r packet)) addr (fun q hq => by
    cases found.symm.trans hq
    change ((m.setPeer r _).peerAt r).isConnected = false
    rw [hself]
    rfl)
  refine ⟨rejected r packet, notes, ?_, announces_rejected h r, habout⟩
  rw [hdisconnect]
  refine hevents.trans ?_
  exact List.append_assoc m.events [rejected r packet] notes

end Received

/-- The request of the outgoing peer `r` of the client `a` waits in the server `b`, is rejected, and
the client is sent `bytes` for it. -/
structure RejectionArrives (a b : NetManager) (r : PeerRef) (q : RequestRef)
    (rejectData : Option Bytes) (offset size : ℕ) (force : Bool) (payload : Bytes)
    (addrB : NetAddress) (bytes : Bytes) : Prop where
  made : q < b.requestCount
  unused : (b.requestAt q).used = false
  data : Supplies rejectData offset size payload
  fits : 9 + size < possibleMtu.getD 0 0
  time : (b.requestAt q).internalPacket.connectionTime = (a.peerAt r).connectTime
  sent : ⟨(b.requestAt q).remoteEndpoint, bytes⟩ ∈
    (b.reject q rejectData offset size force).sent.drop b.sent.length
  found : a.tryGetPeer addrB = some r
  outgoing : (a.peerAt r).connectionState = .outgoing

/-- The client takes the packet for a rejection and reports it with its data, once. -/
structure Recognised (a : NetManager) (r : PeerRef) (addrB : NetAddress) (bytes payload : Bytes) :
    Prop where
  result : (a.peerAt r).processDisconnect (a.receivePacket bytes) = .reject
  event : ∃ e notes, (a.receiveLogic bytes addrB).events = a.events ++ e :: notes ∧
    Announces r payload e ∧ ∀ n ∈ notes, ∀ r, ¬ n.About r

variable {force : Bool} {addrB : NetAddress} {bytes : Bytes}

theorem RejectionArrives.packet
    (h : RejectionArrives a b r q rejectData offset size force payload addrB bytes)
    (hb : Consistent b) : ∃ packet : NetPacket, packet.wire = bytes ∧
      packet.Disconnects (b.requestAt q).internalPacket.connectionNumber
        (if force then 0 else (a.peerAt r).connectTime) payload := by
  have hsent := h.sent
  rw [← h.time]
  rcases reject_sent hb h.made h.unused force h.data h.fits with heq | ⟨packet, heq, hpacket⟩
  · rw [heq, List.drop_length] at hsent
    cases hsent
  · rw [heq, List.drop_left, List.mem_singleton] at hsent
    cases hsent
    exact ⟨packet, rfl, hpacket⟩

theorem RejectionArrives.receive
    (h : RejectionArrives a b r q rejectData offset size force payload addrB bytes)
    (hb : Consistent b) : ∃ packet : NetPacket, packet.wire = bytes ∧
      (a.receivePacket bytes).wire = packet.wire ∧
      packet.Disconnects (b.requestAt q).internalPacket.connectionNumber
        (if force then 0 else (a.peerAt r).connectTime) payload := by
  obtain ⟨packet, rfl, hpacket⟩ := h.packet hb
  refine ⟨packet, rfl, receivePacket_wire ?_, hpacket⟩
  rw [NetPacket.length_wire, hpacket.size, h.data.length]
  exact le_trans (le_of_lt h.fits) (by decide)

theorem RejectionArrives.result
    (h : RejectionArrives a b r q rejectData offset size force payload addrB bytes)
    (hb : Consistent b) : (a.peerAt r).processDisconnect (a.receivePacket bytes) = .reject ↔
      (b.requestAt q).internalPacket.connectionNumber = (a.peerAt r).connectNumber ∧
        (force = true → (a.peerAt r).connectTime = 0) := by
  obtain ⟨packet, rfl, hwire, hpacket⟩ := h.receive hb
  rw [processDisconnect_reject h.outgoing (hpacket.of_wire hwire)]
  cases force with
  | true => exact ⟨fun ⟨ht, hn⟩ => ⟨hn, fun _ => ht.symm⟩, fun ⟨hn, ht⟩ => ⟨(ht rfl).symm, hn⟩⟩
  | false => exact ⟨fun ⟨_, hn⟩ => ⟨hn, nofun⟩, fun ⟨hn, _⟩ => ⟨rfl, hn⟩⟩

/-- A rejection is recognised if the request still has the number that the client began with, and
a forced one only by a client whose connect time is zero. -/
theorem recognised_iff (ha : Reachable Initial Step a) (hb : Reachable Initial Step b)
    (h : RejectionArrives a b r q rejectData offset size force payload addrB bytes) :
    Recognised a r addrB bytes payload ↔
      (b.requestAt q).internalPacket.connectionNumber = (a.peerAt r).connectNumber ∧
        (force = true → (a.peerAt r).connectTime = 0) := by
  rw [← h.result (consistent_of_reachable hb)]
  refine ⟨fun h => h.result, fun hreject => ⟨hreject, ?_⟩⟩
  obtain ⟨packet, rfl, hwire, hpacket⟩ := h.receive (consistent_of_reachable hb)
  have hget := a.poolGetPacket_aside maxPacketSize
  rw [receiveLogic_disconnect hpacket hwire, h.found]
  obtain ⟨e, notes, hevents, hannounces, habout⟩ := onDisconnect_reject
    (m := (a.poolGetPacket maxPacketSize).2) (r := r)
    (by rw [tryGetPeer, hget.peers]; exact h.found)
    (by rw [hget.peerAt]; exact ((consistent_of_reachable ha).registered _ _ h.found).2)
    (by rw [hget.peerAt]; exact h.outgoing) (hpacket.of_wire hwire)
    (by rw [hget.peerAt]; exact hreject)
  exact ⟨e, notes, hevents.trans (congrArg (· ++ e :: notes) hget.events), hannounces, habout⟩

/-- Both kinds of rejections with data reach the client. -/
theorem exists_rejectionArrives (force : Bool) : ∃ bytes, RejectionArrives connectingClient
    askedServer 0 0 (some [7, 8]) 0 2 force [7, 8] ⟨2, 1, 2, 0⟩ bytes := by
  have hsent : ((askedServer.reject 0 (some [7, 8]) 0 2 force).sent.drop
      askedServer.sent.length).map (·.endpoint) = [(askedServer.requestAt 0).remoteEndpoint] := by
    cases force <;> decide +kernel
  obtain ⟨d, rest, hdrop, hendpoint, -⟩ := List.map_eq_cons_iff.mp hsent
  refine ⟨d.bytes, by decide +kernel, by decide +kernel, ⟨rfl, rfl⟩, by decide, by decide +kernel,
    ?_, by decide +kernel, by decide +kernel⟩
  rw [hdrop, ← hendpoint]
  exact List.mem_cons_self

theorem recognised_connectingClient : ∃ bytes, RejectionArrives connectingClient askedServer 0 0
      (some [7, 8]) 0 2 false [7, 8] ⟨2, 1, 2, 0⟩ bytes ∧
    Recognised connectingClient 0 ⟨2, 1, 2, 0⟩ bytes [7, 8] := by
  obtain ⟨bytes, h⟩ := exists_rejectionArrives false
  exact ⟨bytes, h, (recognised_iff connectingClient_reachable askedServer_reachable h).mpr
    ⟨by decide +kernel, nofun⟩⟩

/-- The client does not recognise a forced rejection. -/
theorem not_always_recognised : ¬ ∀ (a b : NetManager) (r : PeerRef) (q : RequestRef)
    (rejectData : Option Bytes) (offset size : ℕ) (force : Bool) (payload : Bytes)
    (addrB : NetAddress) (bytes : Bytes), Reachable Initial Step a → Reachable Initial Step b →
    RejectionArrives a b r q rejectData offset size force payload addrB bytes →
      Recognised a r addrB bytes payload := by
  intro h
  obtain ⟨bytes, harrives⟩ := exists_rejectionArrives true
  have hresult := (h _ _ _ _ _ _ _ _ _ _ _ connectingClient_reachable askedServer_reachable
    harrives).result
  rw [harrives.result (consistent_of_reachable askedServer_reachable)] at hresult
  exact absurd (hresult.2 rfl) (by decide +kernel)

end NetManager

end LiteNet.Manager
