import LiteNet.Wire.Handshake

/-! # Round trips of the connection packets

What a connection packet is made of is what its receiver decodes, except for the
peer id of an accept, of which only the low byte is written.
-/

namespace LiteNet.Wire
open Library

theorem Int64.ofNat_toUInt64 (v : Int64) : Int64.ofNat v.toUInt64.toNat = v := by
  apply Int64.toBitVec.inj
  simp

theorem Int32.ofNat_toUInt32 (v : Int32) : Int32.ofNat v.toUInt32.toNat = v := by
  apply Int32.toBitVec.inj
  simp

namespace NetAddress

theorem ofRaw_raw (a : NetAddress) : ofRaw a.raw = a := by
  obtain ⟨family, port, addr, zero⟩ := a
  have hfamily := family.toNat_lt
  have hport := port.toNat_lt
  have haddr := addr.toNat_lt
  have hzero := zero.toNat_lt
  have hraw : raw ⟨family, port, addr, zero⟩ = leBytes 2 family.toNat ++ (leBytes 2 port.toNat ++
      (leBytes 4 addr.toNat ++ (leBytes 8 zero.toNat ++ []))) := by
    simp only [raw, List.append_assoc, List.append_nil]
  have hskip : ∀ k v (rest : Bytes) pos n,
      readLE (leBytes k v ++ rest) (k + pos) n = readLE rest pos n := by
    intro k v rest pos n
    simpa using readLE_append_right (leBytes k v) rest pos n
  have h0 : readLE (raw ⟨family, port, addr, zero⟩) 0 2 = family.toNat := by
    rw [hraw, readLE_leBytes_append]
    omega
  have h2 : readLE (raw ⟨family, port, addr, zero⟩) 2 2 = port.toNat := by
    rw [hraw, hskip 2 _ _ 0, readLE_leBytes_append]
    omega
  have h4 : readLE (raw ⟨family, port, addr, zero⟩) 4 4 = addr.toNat := by
    rw [hraw, hskip 2 _ _ 2, hskip 2 _ _ 0, readLE_leBytes_append]
    omega
  have h8 : readLE (raw ⟨family, port, addr, zero⟩) 8 8 = zero.toNat := by
    rw [hraw, hskip 2 _ _ 6, hskip 2 _ _ 4, hskip 4 _ _ 0, readLE_leBytes_append]
    omega
  rw [ofRaw, h0, h2, h4, h8, UInt16.ofNat_toNat, UInt16.ofNat_toNat, UInt32.ofNat_toNat,
    UInt64.ofNat_toNat]

end NetAddress

namespace NetPacket

variable {p q : NetPacket} {position width : ℕ}

theorem getInt64_setInt64 (p : NetPacket) (v : Int64) (h : position + 8 ≤ p.bufferSize) :
    (p.setInt64 v position).getInt64 position = v := by
  have hv := v.toUInt64.toNat_lt
  rw [getInt64, setInt64, getValueAt_setValueAt _ _ h, Nat.mod_eq_of_lt (by omega),
    Int64.ofNat_toUInt64]

theorem getInt32_setInt32 (p : NetPacket) (v : Int32) (h : position + 4 ≤ p.bufferSize) :
    (p.setInt32 v position).getInt32 position = v := by
  have hv := v.toUInt32.toNat_lt
  rw [getInt32, setInt32, getValueAt_setValueAt _ _ h, Nat.mod_eq_of_lt (by omega),
    Int32.ofNat_toUInt32]

theorem getValueAt_succ (p : NetPacket) (h : position < p.bufferSize) :
    p.getValueAt position (width + 1) =
      (p.byte position).toNat + 256 * p.getValueAt (position + 1) width := by
  have hlt : position < p.data.length := h
  rw [getValueAt, readLE, readBytes, List.drop_eq_getElem_cons hlt, List.take_succ_cons, ofLEBytes,
    byte, List.getD_eq_getElem?_getD, List.getElem?_eq_getElem hlt]
  rfl

theorem getValueAt_new (property : PacketProperty) (size : ℕ)
    (h : 3 ≤ size + property.getHeaderSize) (hp : 0 < position) :
    (new property size h).getValueAt position width = 0 := by
  have hdata : (alloc (size + property.getHeaderSize) h).data =
      List.replicate (growCapacity (size + property.getHeaderSize) 0
        (size + property.getHeaderSize)) 0 := by
    simp [alloc, ensure]
  rw [new, setProperty, setByte, getValueAt_write_of_disjoint _ _ _ (.inr hp), getValueAt, hdata,
    readLE_replicate_zero]

end NetPacket

namespace NetConnectAcceptPacket

variable (connectTime : Int64) (connectNum : UInt8) (localPeerId : ℕ)

theorem make_eq : make connectTime connectNum localPeerId =
    ((((NetPacket.new .connectAccept 0 (by decide)).setInt64 connectTime 1).setByte 9
      connectNum).setByte 10 0).setByte 11 (UInt8.ofNat localPeerId) := rfl

theorem size_make : (make connectTime connectNum localPeerId).size = connectAcceptHeaderSize := rfl

theorem connectAcceptHeaderSize_le_bufferSize : connectAcceptHeaderSize ≤
    (NetPacket.new .connectAccept 0 (by decide)).bufferSize :=
  (NetPacket.new .connectAccept 0 (by decide)).size_le

theorem getInt64_make : (make connectTime connectNum localPeerId).getInt64 1 = connectTime := by
  have hbuffer := connectAcceptHeaderSize_le_bufferSize
  rw [make_eq, NetPacket.getInt64]
  rw [NetPacket.setByte, NetPacket.getValueAt_write_of_disjoint _ _ _ (.inl (by decide)),
    NetPacket.setByte, NetPacket.getValueAt_write_of_disjoint _ _ _ (.inl (by decide)),
    NetPacket.setByte, NetPacket.getValueAt_write_of_disjoint _ _ _ (.inl (by decide))]
  exact NetPacket.getInt64_setInt64 _ _ (le_trans (by decide) hbuffer)

theorem byte_make_number : (make connectTime connectNum localPeerId).byte 9 = connectNum := by
  have hbuffer := connectAcceptHeaderSize_le_bufferSize
  rw [make_eq, NetPacket.byte_setByte_of_ne _ _ (by decide),
    NetPacket.byte_setByte_of_ne _ _ (by decide)]
  apply NetPacket.byte_setByte
  exact ((by decide : 9 < connectAcceptHeaderSize).trans_le hbuffer).trans_eq
    (NetPacket.write_bufferSize _ _ _).symm

theorem byte_make_reused : (make connectTime connectNum localPeerId).byte 10 = 0 := by
  have hbuffer := connectAcceptHeaderSize_le_bufferSize
  rw [make_eq, NetPacket.byte_setByte_of_ne _ _ (by decide)]
  apply NetPacket.byte_setByte
  simp only [NetPacket.setByte, NetPacket.setInt64, NetPacket.setValueAt,
    NetPacket.write_bufferSize]
  exact (by decide : 10 < connectAcceptHeaderSize).trans_le hbuffer

/-- Only the low byte of the peer id is written; the other three are zero. -/
theorem getInt32_make :
    (make connectTime connectNum localPeerId).getInt32 11 = .ofNat (localPeerId % 256) := by
  have hbuffer := connectAcceptHeaderSize_le_bufferSize
  have hin : 11 < (make connectTime connectNum localPeerId).bufferSize := by
    simp only [make_eq, NetPacket.setByte, NetPacket.setInt64, NetPacket.setValueAt,
      NetPacket.write_bufferSize]
    exact (by decide : 11 < connectAcceptHeaderSize).trans_le hbuffer
  have hlow : (make connectTime connectNum localPeerId).byte 11 = UInt8.ofNat localPeerId := by
    rw [make_eq]
    apply NetPacket.byte_setByte
    simpa only [make_eq, NetPacket.setByte, NetPacket.write_bufferSize] using hin
  have hhigh : (make connectTime connectNum localPeerId).getValueAt 12 3 = 0 := by
    rw [make_eq]
    rw [NetPacket.setByte, NetPacket.getValueAt_write_of_disjoint _ _ _ (.inr (by simp)),
      NetPacket.setByte, NetPacket.getValueAt_write_of_disjoint _ _ _ (.inr (by simp)),
      NetPacket.setByte, NetPacket.getValueAt_write_of_disjoint _ _ _ (.inr (by simp)),
      NetPacket.setInt64, NetPacket.setValueAt,
      NetPacket.getValueAt_write_of_disjoint _ _ _ (.inr (by simp)),
      NetPacket.getValueAt_new _ _ _ (by decide)]
  rw [NetPacket.getInt32, NetPacket.getValueAt_succ _ hin, hlow, hhigh, UInt8.toNat_ofNat']
  rfl

theorem make_unstamped :
    (make connectTime connectNum localPeerId).Unstamped .connectAccept :=
  ((((NetPacket.new_unstamped .connectAccept _ (by decide)).setValueAt _ one_pos 8).write
    (by decide) [connectNum]).write (by decide) [0]).write (by decide) [UInt8.ofNat localPeerId]

theorem verify_make : (make connectTime connectNum localPeerId).verify = true := by
  rw [NetPacket.verify, NetPacket.getHeaderSize, NetPacket.isFragmented, NetPacket.propertyCode,
    (make_unstamped connectTime connectNum localPeerId).byte_eq, size_make]
  decide

theorem fromData_make (h : connectNum.toNat < maxConnectionNumber) :
    fromData (make connectTime connectNum localPeerId) =
      some ⟨connectTime, connectNum, .ofNat (localPeerId % 256), false⟩ := by
  have hid : ¬ Int32.ofNat (localPeerId % 256) < 0 := by
    have hzero : (0 : Int32).toInt = 0 := rfl
    rw [Int32.lt_iff_toInt_lt, Int32.toInt_ofNat_of_lt (by omega), hzero]
    omega
  rw [fromData, if_neg (not_not.mpr (size_make ..))]
  simp only [byte_make_number, byte_make_reused, getInt32_make, getInt64_make]
  rw [if_neg (Nat.not_le.mpr h), if_neg (by decide), if_neg hid]
  simp

/-- An accept is decoded to what it was made of exactly when the peer id fits one byte. -/
theorem make_roundTrip_iff (h : connectNum.toNat < maxConnectionNumber)
    (hid : localPeerId < 2 ^ 31) :
    ((make connectTime connectNum localPeerId).verify = true ∧
      fromData (make connectTime connectNum localPeerId) =
        some ⟨connectTime, connectNum, .ofNat localPeerId, false⟩) ↔ localPeerId < 256 := by
  rw [fromData_make _ _ _ h]
  constructor
  · rintro ⟨-, hsame⟩
    simp only [Option.some.injEq, mk.injEq, true_and, and_true] at hsame
    have hsame := congrArg Int32.toInt hsame
    rw [Int32.toInt_ofNat_of_lt (by omega), Int32.toInt_ofNat_of_lt hid] at hsame
    omega
  · intro hlt
    rw [Nat.mod_eq_of_lt hlt]
    exact ⟨verify_make .., rfl⟩

theorem make_roundTrip_iff_firstPeer :
    ((make 5 1 0).verify = true ∧ fromData (make 5 1 0) = some ⟨5, 1, .ofNat 0, false⟩) ↔ 0 < 256 :=
  make_roundTrip_iff 5 1 0 (by decide) (by decide)

/-- The server's peer 256 tells its client that it is peer 0. -/
theorem not_always_make_roundTrip :
    ¬ ∀ (connectTime : Int64) (connectNum : UInt8) (localPeerId : ℕ),
      connectNum.toNat < maxConnectionNumber → localPeerId < 2 ^ 31 →
      (make connectTime connectNum localPeerId).verify = true ∧
        fromData (make connectTime connectNum localPeerId) =
          some ⟨connectTime, connectNum, .ofNat localPeerId, false⟩ := by
  intro h
  obtain ⟨-, hsame⟩ := h 5 1 256 (by decide) (by decide)
  rw [fromData_make _ _ _ (by decide)] at hsame
  simp only [Option.some.injEq, mk.injEq, true_and, and_true] at hsame
  exact absurd hsame (by decide)

end NetConnectAcceptPacket

namespace NetConnectRequestPacket

variable (connectData : Bytes) (address : NetAddress) (connectTime : Int64) (localId : Int32)

theorem make_eq : make connectData address connectTime localId =
    ((((((NetPacket.new .connectRequest (connectData.length + NetAddress.rawSize)
      (le_add_left (by decide))).setInt32 (.ofNat protocolId) 1).setInt64 connectTime 5).setInt32
      localId 13).setByte (connectRequestHeaderSize - 1) (UInt8.ofNat NetAddress.rawSize)).write
      connectRequestHeaderSize address.raw).write (connectRequestHeaderSize + NetAddress.rawSize)
      connectData := by
  have hdata : readBytes connectData 0 connectData.length = connectData := by
    simp [readBytes]
  rw [make, NetPacket.copyFrom, hdata]

/-- The header, the address and the data are inside the buffer. -/
theorem le_bufferSize_new : 34 + connectData.length ≤
    (NetPacket.new .connectRequest (connectData.length + NetAddress.rawSize)
      (le_add_left (by decide))).bufferSize := by
  have hle := (NetPacket.new .connectRequest (connectData.length + NetAddress.rawSize)
    (le_add_left (by decide))).size_le
  have hsize : connectData.length + NetAddress.rawSize +
      PacketProperty.connectRequest.getHeaderSize = 34 + connectData.length := by
    have hraw : NetAddress.rawSize + PacketProperty.connectRequest.getHeaderSize = 34 := by decide
    omega
  rwa [NetPacket.size_new, hsize] at hle

theorem getInt32_make_protocol :
    (make connectData address connectTime localId).getInt32 1 = .ofNat protocolId := by
  have hbuffer := le_bufferSize_new connectData
  rw [make_eq, NetPacket.getInt32, NetPacket.getValueAt_write_of_disjoint _ _ _ (.inl (by decide)),
    NetPacket.getValueAt_write_of_disjoint _ _ _ (.inl (by decide)),
    NetPacket.setByte, NetPacket.getValueAt_write_of_disjoint _ _ _ (.inl (by decide)),
    NetPacket.setInt32, NetPacket.setValueAt,
    NetPacket.getValueAt_write_of_disjoint _ _ _ (.inl (by decide)),
    NetPacket.setInt64, NetPacket.setValueAt,
    NetPacket.getValueAt_write_of_disjoint _ _ _ (.inl (by decide))]
  exact NetPacket.getInt32_setInt32 _ _ (by omega)

theorem getInt64_make :
    (make connectData address connectTime localId).getInt64 5 = connectTime := by
  have hbuffer := le_bufferSize_new connectData
  rw [make_eq, NetPacket.getInt64, NetPacket.getValueAt_write_of_disjoint _ _ _ (.inl (by decide)),
    NetPacket.getValueAt_write_of_disjoint _ _ _ (.inl (by decide)),
    NetPacket.setByte, NetPacket.getValueAt_write_of_disjoint _ _ _ (.inl (by decide)),
    NetPacket.setInt32, NetPacket.setValueAt,
    NetPacket.getValueAt_write_of_disjoint _ _ _ (.inl (by decide))]
  apply NetPacket.getInt64_setInt64
  rw [NetPacket.setInt32, NetPacket.setValueAt, NetPacket.write_bufferSize]
  omega

theorem getInt32_make_peerId :
    (make connectData address connectTime localId).getInt32 13 = localId := by
  have hbuffer := le_bufferSize_new connectData
  rw [make_eq, NetPacket.getInt32, NetPacket.getValueAt_write_of_disjoint _ _ _ (.inl (by decide)),
    NetPacket.getValueAt_write_of_disjoint _ _ _ (.inl (by decide)),
    NetPacket.setByte, NetPacket.getValueAt_write_of_disjoint _ _ _ (.inl (by decide))]
  apply NetPacket.getInt32_setInt32
  rw [NetPacket.setInt64, NetPacket.setValueAt, NetPacket.write_bufferSize, NetPacket.setInt32,
    NetPacket.setValueAt, NetPacket.write_bufferSize]
  omega

theorem byte_make_rawSize : (make connectData address connectTime localId).byte
    (connectRequestHeaderSize - 1) = UInt8.ofNat NetAddress.rawSize := by
  have hbuffer := le_bufferSize_new connectData
  rw [make_eq, NetPacket.byte_write_of_disjoint _ _ _ _ (.inl (by decide)),
    NetPacket.byte_write_of_disjoint _ _ _ _ (.inl (by decide))]
  apply NetPacket.byte_setByte
  simp only [NetPacket.setInt64, NetPacket.setInt32, NetPacket.setValueAt,
    NetPacket.write_bufferSize]
  have hlt : connectRequestHeaderSize - 1 < 34 := by decide
  omega

theorem bufferSize_make : (make connectData address connectTime localId).bufferSize =
    (NetPacket.new .connectRequest (connectData.length + NetAddress.rawSize)
      (le_add_left (by decide))).bufferSize := by
  simp only [make_eq, NetPacket.setByte, NetPacket.setInt64, NetPacket.setInt32,
    NetPacket.setValueAt, NetPacket.write_bufferSize]

theorem readBytes_make_address : readBytes (make connectData address connectTime localId).data
    connectRequestHeaderSize NetAddress.rawSize = address.raw := by
  have hbuffer := le_bufferSize_new connectData
  rw [← bufferSize_make connectData address connectTime localId, make_eq] at hbuffer
  rw [make_eq, NetPacket.write, readBytes_writeBytes_of_disjoint _ _ _ (.inl le_rfl)]
  simp only [NetPacket.write_bufferSize] at hbuffer
  rw [← NetAddress.length_raw address]
  apply readBytes_writeBytes_self
  rw [NetAddress.length_raw]
  have hend : connectRequestHeaderSize + NetAddress.rawSize = 34 := by decide
  exact hend.trans_le (le_of_add_le_left hbuffer)

theorem readBytes_make_data : readBytes (make connectData address connectTime localId).data
    (connectRequestHeaderSize + NetAddress.rawSize) connectData.length = connectData := by
  have hbuffer := le_bufferSize_new connectData
  rw [← bufferSize_make connectData address connectTime localId, make_eq,
    NetPacket.write_bufferSize] at hbuffer
  rw [make_eq]
  exact readBytes_writeBytes_self _ _ _ hbuffer

theorem make_unstamped :
    (make connectData address connectTime localId).Unstamped .connectRequest := by
  rw [make_eq]
  exact ((((((NetPacket.new_unstamped .connectRequest _ (le_add_left (by decide))).setValueAt _
    one_pos 4).setValueAt _ (by decide) 8).setValueAt _ (by decide) 4).write (by decide) [_]).write
    (by decide) _).write (by decide) _

theorem verify_make : (make connectData address connectTime localId).verify = true := by
  have hsize := size_make connectData address connectTime localId
  have hheader : headerSizes.getD PacketProperty.connectRequest.code 0 =
    connectRequestHeaderSize := by decide
  have hbits : (UInt8.ofNat PacketProperty.connectRequest.code &&& 0x1F).toNat =
    PacketProperty.connectRequest.code ∧
    (UInt8.ofNat PacketProperty.connectRequest.code &&& 0x80 != 0) = false := by decide
  rw [NetPacket.verify, NetPacket.getHeaderSize, NetPacket.isFragmented, NetPacket.propertyCode,
    (make_unstamped connectData address connectTime localId).byte_eq, hbits.1, hbits.2,
    if_neg (by decide), hheader, hsize]
  simp

/-- What decoding a request yields, with the bytes its data reader has left to read. -/
structure Decodes (packet : NetPacket) (connectData : Bytes) (address : NetAddress)
    (connectTime : Int64) (localId : Int32) (number : UInt8) : Prop where
  verify : packet.verify = true
  protocol : getProtocolId packet = .ofNat protocolId
  request : ∃ request, fromData packet = some request ∧ request.connectionTime = connectTime ∧
    request.connectionNumber = number ∧ request.peerId = localId ∧
    request.targetAddress = address ∧ request.packet = packet ∧ request.data.rest = connectData

section Made

variable {connectData} {address} {connectTime} {localId} {number : UInt8} {packet : NetPacket}

theorem size_made : ((make connectData address connectTime localId).setConnectionNumber
    number).size = 34 + connectData.length := by
  have hheader : NetAddress.rawSize + connectRequestHeaderSize = 34 := by decide
  rw [NetPacket.size_setConnectionNumber, size_make]
  omega

theorem getValueAt_made (h : packet.wire =
      ((make connectData address connectTime localId).setConnectionNumber number).wire)
    {position width : ℕ} (hpos : 0 < position) (hle : position + width ≤ 34) :
    packet.getValueAt position width =
      (make connectData address connectTime localId).getValueAt position width := by
  rw [NetPacket.getValueAt_of_wire h (by rw [size_made]; omega), NetPacket.setConnectionNumber,
    NetPacket.setByte, NetPacket.getValueAt_write_of_disjoint _ _ _ (.inr hpos)]

theorem readBytes_made (h : packet.wire =
      ((make connectData address connectTime localId).setConnectionNumber number).wire)
    {position width : ℕ} (hpos : 0 < position) (hle : position + width ≤ 34 + connectData.length) :
    readBytes packet.data position width =
      readBytes (make connectData address connectTime localId).data position width := by
  rw [NetPacket.readBytes_of_wire h (by rw [size_made]; exact hle), NetPacket.setConnectionNumber,
    NetPacket.setByte, NetPacket.write, readBytes_writeBytes_of_disjoint _ _ _ (.inr hpos)]

theorem connectionNumber_made (hn : number.toNat < maxConnectionNumber) (h : packet.wire =
      ((make connectData address connectTime localId).setConnectionNumber number).wire) :
    packet.connectionNumber = number := by
  rw [NetPacket.connectionNumber, NetPacket.byte_of_wire h (by rw [size_made]; omega),
    ← NetPacket.connectionNumber, NetPacket.connectionNumber_setConnectionNumber,
    NetPacket.and_three_of_lt hn]

theorem verify_made (hn : number.toNat < maxConnectionNumber) (h : packet.wire =
      ((make connectData address connectTime localId).setConnectionNumber number).wire) :
    packet.verify = true := by
  rw [NetPacket.verify_of_wire h (by rw [size_made]; omega),
    NetPacket.verify_setConnectionNumber _ _ hn, verify_make]

theorem getProtocolId_made (h : packet.wire =
      ((make connectData address connectTime localId).setConnectionNumber number).wire) :
    getProtocolId packet = .ofNat protocolId := by
  rw [getProtocolId, NetPacket.getInt32, getValueAt_made h (by decide) (by decide)]
  exact getInt32_make_protocol connectData address connectTime localId

theorem fromData_made (hn : number.toNat < maxConnectionNumber) (h : packet.wire =
      ((make connectData address connectTime localId).setConnectionNumber number).wire) :
    ∃ request, fromData packet = some request ∧ request.connectionTime = connectTime ∧
      request.connectionNumber = number ∧ request.peerId = localId ∧
      request.targetAddress = address ∧ request.packet = packet ∧
      request.data.rest = connectData := by
  have hnumber := connectionNumber_made hn h
  have haddrSize : (packet.byte (connectRequestHeaderSize - 1)).toNat = NetAddress.rawSize := by
    have hlt : connectRequestHeaderSize - 1 < 34 := by decide
    rw [NetPacket.byte_of_wire h (by rw [size_made]; omega), NetPacket.setConnectionNumber,
      NetPacket.byte_setByte_of_ne _ _ (by decide), byte_make_rawSize]
    rfl
  rw [fromData, if_neg (by rw [hnumber]; omega), if_neg (not_not.mpr haddrSize)]
  refine ⟨_, rfl, ?_, hnumber, ?_, ?_, rfl, ?_⟩
  · exact (congrArg Int64.ofNat (getValueAt_made h (by decide) (by decide))).trans
      (getInt64_make connectData address connectTime localId)
  · exact (congrArg Int32.ofNat (getValueAt_made h (by decide) (by decide))).trans
      (getInt32_make_peerId connectData address connectTime localId)
  · change NetAddress.ofRaw _ = address
    rw [readBytes_made h (by decide)
        (le_trans (by decide) (Nat.le_add_right 34 connectData.length)),
      readBytes_make_address, NetAddress.ofRaw_raw]
  · have hleft : packet.size - (connectRequestHeaderSize + NetAddress.rawSize) =
        connectData.length := by
      have hheader : connectRequestHeaderSize + NetAddress.rawSize = 34 := by decide
      rw [NetPacket.size_eq_of_wire h, size_made, hheader, Nat.add_sub_cancel_left]
    change readBytes packet.data (connectRequestHeaderSize + NetAddress.rawSize)
      (packet.size - (connectRequestHeaderSize + NetAddress.rawSize)) = connectData
    have hfirst : 0 < connectRequestHeaderSize + NetAddress.rawSize := by decide
    rw [hleft, readBytes_made h hfirst le_rfl, readBytes_make_data]

end Made

/-- A request that reaches its receiver with the bytes it was made of, in a buffer of any capacity,
is decoded to what it was made of. -/
theorem make_roundTrip {number : UInt8} (hn : number.toNat < maxConnectionNumber)
    {packet : NetPacket} (h : packet.wire =
      ((make connectData address connectTime localId).setConnectionNumber number).wire) :
    Decodes packet connectData address connectTime localId number :=
  ⟨verify_made hn h, getProtocolId_made h, fromData_made hn h⟩

/-- A request with a short key for port 1 of the loopback host, as it is received. -/
theorem make_roundTrip_shortKey :
    Decodes (.received
        ((make [2, 0, 7, 8] ⟨2, 256, 0x0100007F, 0⟩ 5 0).setConnectionNumber 3).wire)
      [2, 0, 7, 8] ⟨2, 256, 0x0100007F, 0⟩ 5 0 3 :=
  make_roundTrip [2, 0, 7, 8] ⟨2, 256, 0x0100007F, 0⟩ 5 0 (by decide) (NetPacket.wire_received _)

end NetConnectRequestPacket

end LiteNet.Wire
