import Mathlib.Data.Int.Notation
import LiteNet.Wire.Address
import LiteNet.Wire.DataReader
import LiteNet.Wire.Header

/-! # The connection packets -/

namespace LiteNet.Wire
open Library

/-- A signed value read from its little-endian bytes. -/
def NetPacket.getInt64 (p : NetPacket) (position : ℕ) : Int64 := .ofNat (p.getValueAt position 8)

def NetPacket.getInt32 (p : NetPacket) (position : ℕ) : Int32 := .ofNat (p.getValueAt position 4)

def NetPacket.setInt64 (p : NetPacket) (value : Int64) (position : ℕ) : NetPacket :=
  p.setValueAt value.toUInt64.toNat position 8

def NetPacket.setInt32 (p : NetPacket) (value : Int32) (position : ℕ) : NetPacket :=
  p.setValueAt value.toUInt32.toNat position 4

structure NetConnectRequestPacket where
  connectionTime : Int64
  connectionNumber : UInt8
  targetAddress : NetAddress
  data : NetDataReader
  peerId : Int32
  packet : NetPacket

namespace NetConnectRequestPacket

def getProtocolId (packet : NetPacket) : Int32 := packet.getInt32 1

def fromData (packet : NetPacket) : Option NetConnectRequestPacket :=
  if maxConnectionNumber ≤ packet.connectionNumber.toNat then none
  else if (packet.byte (connectRequestHeaderSize - 1)).toNat ≠ NetAddress.rawSize then none
  else some {
    connectionTime := packet.getInt64 5
    connectionNumber := packet.connectionNumber
    targetAddress := .ofRaw (readBytes packet.data connectRequestHeaderSize NetAddress.rawSize)
    data := ⟨packet.data, packet.size, connectRequestHeaderSize + NetAddress.rawSize⟩
    peerId := packet.getInt32 13
    packet := packet }

def make (connectData : Bytes) (address : NetAddress) (connectTime : Int64) (localId : Int32) :
    NetPacket :=
  let result := NetPacket.new .connectRequest (connectData.length + NetAddress.rawSize)
    (le_add_left (by decide))
  let result := result.setInt32 (.ofNat protocolId) 1
  let result := result.setInt64 connectTime 5
  let result := result.setInt32 localId 13
  let result := result.setByte (connectRequestHeaderSize - 1) (UInt8.ofNat NetAddress.rawSize)
  let result := result.write connectRequestHeaderSize address.raw
  result.copyFrom connectData 0 (connectRequestHeaderSize + NetAddress.rawSize) connectData.length

theorem size_make (connectData : Bytes) (address : NetAddress) (connectTime : Int64)
    (localId : Int32) : (make connectData address connectTime localId).size =
      connectData.length + NetAddress.rawSize + connectRequestHeaderSize := rfl

theorem property_make (connectData : Bytes) (address : NetAddress) (connectTime : Int64)
    (localId : Int32) : (make connectData address connectTime localId).property =
      .connectRequest := by
  have hnew : (NetPacket.new .connectRequest (connectData.length + NetAddress.rawSize)
      (le_add_left (by decide))).property = .connectRequest := NetPacket.property_setProperty _ _
  -- every field is behind the header byte
  refine (NetPacket.property_write _ (connectRequestHeaderSize + NetAddress.rawSize) _
    (by decide)).trans ?_
  refine (NetPacket.property_write _ connectRequestHeaderSize _ (by decide)).trans ?_
  refine (NetPacket.property_write _ (connectRequestHeaderSize - 1) _ (by decide)).trans ?_
  refine (NetPacket.property_write _ 13 _ (by decide)).trans ?_
  refine (NetPacket.property_write _ 5 _ (by decide)).trans ?_
  exact (NetPacket.property_write _ 1 _ (by decide)).trans hnew

end NetConnectRequestPacket

structure NetConnectAcceptPacket where
  connectionTime : Int64
  connectionNumber : UInt8
  peerId : Int32
  peerNetworkChanged : Bool

namespace NetConnectAcceptPacket

def make (connectTime : Int64) (connectNum : UInt8) (localPeerId : ℕ) : NetPacket :=
  let packet := NetPacket.new .connectAccept 0 (by decide)
  let packet := packet.setInt64 connectTime 1
  let packet := packet.setByte 9 connectNum
  let packet := packet.setByte 10 0
  packet.setByte 11 (UInt8.ofNat localPeerId)

def makeNetworkChanged (connectTime : Int64) (connectNumber : UInt8) (remoteId : Int32) :
    NetPacket :=
  let packet := NetPacket.new .peerNotFound (connectAcceptHeaderSize - 1) (by decide)
  let packet := packet.setInt64 connectTime 1
  let packet := packet.setByte 9 connectNumber
  let packet := packet.setByte 10 1
  packet.setInt32 remoteId 11

theorem makeNetworkChanged_unstamped (connectTime : Int64) (connectNumber : UInt8)
    (remoteId : Int32) :
    (makeNetworkChanged connectTime connectNumber remoteId).Unstamped .peerNotFound :=
  ((((NetPacket.new_unstamped .peerNotFound _ (by decide)).setValueAt _ one_pos 8).write
    (by decide) [connectNumber]).write (by decide) [1]).setValueAt _ (by decide) 4

def fromData (packet : NetPacket) : Option NetConnectAcceptPacket :=
  if packet.size ≠ connectAcceptHeaderSize then none
  else
    let connectionNumber := packet.byte 9
    let isReused := packet.byte 10
    let peerId := packet.getInt32 11
    if maxConnectionNumber ≤ connectionNumber.toNat then none
    else if 1 < isReused then none
    else if peerId < 0 then none
    else some {
      connectionTime := packet.getInt64 1
      connectionNumber := connectionNumber
      peerId := peerId
      peerNetworkChanged := isReused = 1 }

end NetConnectAcceptPacket

end LiteNet.Wire
