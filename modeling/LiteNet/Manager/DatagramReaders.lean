import LiteNet.Manager.Readers
import LiteNet.Manager.Reconnection

/-! # The readers that a datagram makes

A connect request is parsed from its header alone, and its reader starts behind the
address that follows the header, whether or not the datagram has room for the address.
All other readers are made of packets that were verified for their headers.
-/

namespace LiteNet.Wire
open Library

/-- No sequence of reads copies a byte from behind the size, which is a 64-bit number. -/
structure NetDataReader.ReadsInside (reader : NetDataReader) : Prop where
  position_le : reader.position ≤ reader.size
  copies : reader.size < 2 ^ 64 → ∀ (cs : List ReadCall), ∀ range ∈ reader.allCopies cs,
    range.1 + range.2 ≤ reader.size

theorem NetDataReader.Inside.readsInside {reader : NetDataReader} (h : reader.Inside) :
    reader.ReadsInside :=
  ⟨h.position_le, fun hsize cs => h.allCopies hsize cs⟩

/-- What `from_data` parses: a verified request of the protocol with the address size of IPv4. -/
def NetPacket.IsRequest (packet : NetPacket) : Prop :=
  packet.verify = true ∧ packet.property = .connectRequest ∧
    NetConnectRequestPacket.getProtocolId packet = .ofNat protocolId ∧
    (packet.byte (connectRequestHeaderSize - 1)).toNat = NetAddress.rawSize

instance (packet : NetPacket) : Decidable packet.IsRequest :=
  inferInstanceAs (Decidable (_ ∧ _ ∧ _ ∧ _))

/-- A connect request that ends inside the address behind its header. -/
def ShortRequest (bytes : Bytes) : Prop :=
  (NetPacket.received bytes).IsRequest ∧
    bytes.length < connectRequestHeaderSize + NetAddress.rawSize

instance (bytes : Bytes) : Decidable (ShortRequest bytes) := inferInstanceAs (Decidable (_ ∧ _))

/-- The number of a packet has two bits, so the size of the address alone decides. -/
theorem NetConnectRequestPacket.fromData_isSome_iff (packet : NetPacket) :
    (fromData packet).isSome = true ↔
      (packet.byte (connectRequestHeaderSize - 1)).toNat = NetAddress.rawSize := by
  have hlow : ¬ maxConnectionNumber ≤ packet.connectionNumber.toNat :=
    not_le.mpr packet.connectionNumber_lt
  rw [fromData, if_neg hlow]
  split
  · next hsize => exact ⟨(fun h => by cases h), fun h => absurd h hsize⟩
  · next hsize => exact ⟨fun _ => not_not.mp hsize, fun _ => rfl⟩

theorem NetPacket.isRequest_iff (packet : NetPacket) :
    packet.IsRequest ↔ (NetConnectRequestPacket.asked packet).isSome = true := by
  rw [IsRequest, NetConnectRequestPacket.asked]
  split
  · next hpacket =>
    rw [Option.isSome_map, NetConnectRequestPacket.fromData_isSome_iff]
    exact ⟨fun h => h.2.2.2, fun hsize => ⟨hpacket.1, hpacket.2.1, hpacket.2.2, hsize⟩⟩
  · next hpacket =>
    exact ⟨fun h => absurd ⟨h.1, h.2.1, h.2.2.1⟩ hpacket, fun h => by cases h⟩

theorem NetConnectRequestPacket.fromData_reader {packet : NetPacket}
    {request : NetConnectRequestPacket} (h : fromData packet = some request) :
    request.data = ⟨packet.data, packet.size, connectRequestHeaderSize + NetAddress.rawSize⟩ := by
  rw [fromData] at h
  split at h
  · cases h
  · split at h
    · cases h
    · cases h
      rfl

end LiteNet.Wire

namespace LiteNet.Manager
open Library Wire Relation

namespace NetManager

variable {m : NetManager} {bytes : Bytes} {addr : NetAddress}

/-- The readers that a datagram can bring: that of the connect request that is parsed from it, and
those of all events that are queued when it has arrived or in any later state, where what it brought
may be delivered at last. -/
inductive Builds (m : NetManager) (bytes : Bytes) (addr : NetAddress) : NetDataReader → Prop
  | request {request} (verified : (m.receivePacket bytes).verify = true)
      (property : (m.receivePacket bytes).property = .connectRequest)
      (protocol : NetConnectRequestPacket.getProtocolId (m.receivePacket bytes) = .ofNat protocolId)
      (parsed : NetConnectRequestPacket.fromData (m.receivePacket bytes) = some request) :
      Builds m bytes addr request.data
  | event {m' : NetManager} {e : NetEvent} {reader}
      (later : ReflTransGen Step (m.act (.receive bytes addr)) m') (queued : e ∈ m'.events)
      (reads : e.reader = some reader) : Builds m bytes addr reader

theorem isRequest_receivePacket (m : NetManager) (hs : bytes.length ≤ maxPacketSize) :
    (m.receivePacket bytes).IsRequest ↔ (NetPacket.received bytes).IsRequest := by
  have hwire : (m.receivePacket bytes).wire = (NetPacket.received bytes).wire := by
    rw [m.receivePacket_wire hs, NetPacket.wire_received]
  rw [NetPacket.isRequest_iff, NetPacket.isRequest_iff, NetConnectRequestPacket.asked_congr hwire]

/-- Whatever arrives in a state that is reached: all its readers stay inside the datagram exactly if
it is not a connect request that ends inside the address behind its header. -/
theorem datagram_reads_iff (h : Reachable Initial Step m) (hs : bytes.length ≤ maxPacketSize) :
    (∀ reader, Builds m bytes addr reader → reader.ReadsInside) ↔ ¬ ShortRequest bytes := by
  have hsize : (m.receivePacket bytes).size = bytes.length := rfl
  constructor
  · rintro hreads ⟨hrequest, hshort⟩
    obtain ⟨hverify, hproperty, hprotocol, hbyte⟩ := (m.isRequest_receivePacket hs).mpr hrequest
    obtain ⟨request, hparsed⟩ := Option.isSome_iff_exists.mp
      ((NetConnectRequestPacket.fromData_isSome_iff _).mpr hbyte)
    have hle := (hreads _ (.request hverify hproperty hprotocol hparsed)).position_le
    rw [NetConnectRequestPacket.fromData_reader hparsed] at hle
    exact absurd (hle.trans_eq hsize) (not_le.mpr hshort)
  · intro hshort reader hbuilds
    cases hbuilds with
    | request verified property protocol parsed =>
      have hinside := OfRequest.fromData (hsize.trans_le hs) parsed
      have hbyte := (NetConnectRequestPacket.fromData_eq parsed).2.1
      have hrequest := (m.isRequest_receivePacket hs).mp ⟨verified, property, protocol, hbyte⟩
      refine (hinside.inside_iff.mpr ?_).readsInside
      rw [NetConnectRequestPacket.fromData_reader parsed]
      exact not_lt.mp (fun hlt => hshort ⟨hrequest, hlt⟩)
    | event later queued reads =>
      have hreachable := (h.tail ⟨.receive bytes addr, hs, rfl⟩).trans later
      exact ((readable_of_reachable hreachable).events _ queued _ reads).readsInside

/-- Readers of a packet that is queued as it arrives, and of the request of a client. -/
theorem datagram_reads_iff_connectedClient :
    (∀ reader, Builds connectedClient [0, 7] ⟨2, 1, 2, 0⟩ reader → reader.ReadsInside) ∧
      ∀ reader, Builds connectedClient (NetConnectRequestPacket.make [] ⟨2, 1, 2, 0⟩ 5 0).wire
        ⟨2, 1, 3, 0⟩ reader → reader.ReadsInside :=
  ⟨(datagram_reads_iff connectedClient_reachable (by decide)).mpr (by decide +kernel),
    (datagram_reads_iff connectedClient_reachable (show _ ≤ maxPacketSize by decide +kernel)).mpr
      (by decide +kernel)⟩

/-- A request of twenty bytes is queued, and its reader starts at the place 34. -/
theorem not_always_datagram_reads : ¬ ∀ m, Reachable Initial Step m → ∀ (bytes : Bytes) addr,
    bytes.length ≤ maxPacketSize → ∀ reader, Builds m bytes addr reader → reader.ReadsInside := by
  intro h
  have hreads := h connectedClient connectedClient_reachable
    ((NetConnectRequestPacket.make [] ⟨2, 1, 2, 0⟩ 5 0).wire.take 20) ⟨2, 1, 3, 0⟩
    (show _ ≤ maxPacketSize by decide +kernel)
  have hplaces : ((NetConnectRequestPacket.fromData (connectedClient.receivePacket
      ((NetConnectRequestPacket.make [] ⟨2, 1, 2, 0⟩ 5 0).wire.take 20))).map
        fun request => (request.data.position, request.data.size)) = some (34, 20) := by
    decide +kernel
  obtain ⟨request, hparsed, hplace⟩ := Option.map_eq_some_iff.mp hplaces
  obtain ⟨hposition, hsize⟩ := Prod.mk.inj hplace
  have hle := (hreads _ (.request (by decide +kernel) (by decide +kernel) (by decide +kernel)
    hparsed)).position_le
  omega

end NetManager

end LiteNet.Manager
