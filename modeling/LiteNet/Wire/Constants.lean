import Mathlib.Data.Nat.Notation
import Mathlib.Tactic.TypeStar

/-! # Protocol constants and enumerations -/

namespace LiteNet.Wire

def defaultWindowSize : ℕ := 64
def headerSize : ℕ := 1
def channeledHeaderSize : ℕ := 4
def connectRequestHeaderSize : ℕ := 18
def connectAcceptHeaderSize : ℕ := 15
def fragmentHeaderSize : ℕ := 6
def fragmentedHeaderTotalSize : ℕ := channeledHeaderSize + fragmentHeaderSize
def maxSequence : ℕ := 32768
def halfMaxSequence : ℕ := maxSequence / 2
def protocolId : ℕ := 13
def maxUdpHeaderSize : ℕ := 68
def channelTypeCount : ℕ := 4
def maxConnectionNumber : ℕ := 4
def ticksPerMillisecond : ℕ := 10000

def possibleMtu : List ℕ :=
  [576 - maxUdpHeaderSize, 1024, 1232 - maxUdpHeaderSize, 1460 - maxUdpHeaderSize,
    1472 - maxUdpHeaderSize, 1492 - maxUdpHeaderSize, 1500 - maxUdpHeaderSize]

/-- `POSSIBLE_MTU.back()`. -/
def maxPacketSize : ℕ := 1500 - maxUdpHeaderSize

inductive PacketProperty where
  | unreliable
  | channeled
  | ack
  | ping
  | pong
  | connectRequest
  | connectAccept
  | disconnect
  | unconnectedMessage
  | mtuCheck
  | mtuOk
  | broadcast
  | merged
  | shutdownOk
  | peerNotFound
  | invalidProtocol
  | natMessage
  | empty
  /-- `COUNT` and the codes above it, which no verified packet carries -/
  | count
  deriving DecidableEq, Repr

namespace PacketProperty

def code : PacketProperty → ℕ
  | unreliable => 0
  | channeled => 1
  | ack => 2
  | ping => 3
  | pong => 4
  | connectRequest => 5
  | connectAccept => 6
  | disconnect => 7
  | unconnectedMessage => 8
  | mtuCheck => 9
  | mtuOk => 10
  | broadcast => 11
  | merged => 12
  | shutdownOk => 13
  | peerNotFound => 14
  | invalidProtocol => 15
  | natMessage => 16
  | empty => 17
  | count => 18

/-- The cast of a five-bit code to the enumeration. -/
def ofCode : ℕ → PacketProperty
  | 0 => unreliable
  | 1 => channeled
  | 2 => ack
  | 3 => ping
  | 4 => pong
  | 5 => connectRequest
  | 6 => connectAccept
  | 7 => disconnect
  | 8 => unconnectedMessage
  | 9 => mtuCheck
  | 10 => mtuOk
  | 11 => broadcast
  | 12 => merged
  | 13 => shutdownOk
  | 14 => peerNotFound
  | 15 => invalidProtocol
  | 16 => natMessage
  | 17 => empty
  | _ => count

@[simp] theorem ofCode_code (p : PacketProperty) : ofCode p.code = p := by
  cases p <;> rfl

end PacketProperty

/-- `HEADER_SIZES`. The source lists seventeen sizes for eighteen properties, so every size from
`UNCONNECTED_MESSAGE` on stands one place early and `EMPTY` gets the zero of aggregate
initialization. -/
def headerSizes : List ℕ :=
  [headerSize, channeledHeaderSize, channeledHeaderSize, headerSize + 2, headerSize + 10,
    connectRequestHeaderSize, connectAcceptHeaderSize, headerSize + 8, headerSize, headerSize,
    headerSize, headerSize, headerSize, headerSize, headerSize, headerSize, headerSize, 0]

inductive DeliveryMethod where
  | unreliable
  | reliableUnordered
  | sequenced
  | reliableOrdered
  | reliableSequenced
  deriving DecidableEq, Repr

def DeliveryMethod.code : DeliveryMethod → ℕ
  | unreliable => 4
  | reliableUnordered => 0
  | sequenced => 1
  | reliableOrdered => 2
  | reliableSequenced => 3

inductive ConnectionState where
  | outgoing
  | connected
  | shutdownRequested
  | disconnected
  deriving DecidableEq, Repr

inductive NetEventType where
  | connect
  | disconnect
  | receive
  | receiveUnconnected
  | networkError
  | connectionLatencyUpdated
  | broadcast
  | connectionRequest
  | messageDelivered
  deriving DecidableEq, Repr

inductive DisconnectReason where
  | connectionFailed
  | timeout
  | hostUnreachable
  | networkUnreachable
  | remoteConnectionClose
  | disconnectPeerCalled
  | connectionRejected
  | invalidProtocol
  | unknownHost
  | reconnect
  | peerToPeerConnection
  | peerNotFound
  deriving DecidableEq, Repr

inductive ConnectionRequestResult where
  | none
  | accept
  | reject
  | rejectForce
  deriving DecidableEq, Repr

inductive ShutdownResult where
  | none
  | success
  | wasConnected
  deriving DecidableEq, Repr

inductive DisconnectResult where
  | none
  | reject
  | disconnect
  deriving DecidableEq, Repr

inductive ConnectRequestResult where
  | none
  | p2pLose
  | reconnection
  | newConnection
  deriving DecidableEq, Repr

end LiteNet.Wire
