import Mathlib.Data.Stream.Defs
import Mathlib.Logic.Function.Basic
import LiteNet.Channels.Reliable
import LiteNet.Channels.Sequenced
import LiteNet.Wire.Handshake

/-! # The objects of one manager

Peers and connection requests are objects with an identity: a reference is the
number of objects allocated before it, and objects stay where they are when the
registry forgets them. What the program cannot choose (the clocks, the results of
`sendto`) is read from streams. `sent` and `events` keep everything ever passed to
`sendto` and every event ever queued.
-/

namespace LiteNet.Manager
open Library Wire Channels

abbrev PeerRef : Type := ℕ
abbrev RequestRef : Type := ℕ

/-- `net_stopwatch` over a clock in nanoseconds. -/
structure NetStopwatch where
  start : ℤ
  lastTime : ℤ
  running : Bool
  deriving DecidableEq

/-- The value that an `int32_t` addition wraps to. -/
def wrapInt32 (x : ℤ) : ℤ := (Int32.ofInt x).toInt

theorem wrapInt32_add (x y : ℤ) : wrapInt32 (wrapInt32 x + y) = wrapInt32 (x + y) := by
  simp [wrapInt32, Int32.toInt_ofInt, Int.bmod_add_bmod]

theorem wrapInt32_self (x : ℤ) : wrapInt32 (wrapInt32 x) = wrapInt32 x := by
  simpa using wrapInt32_add x 0

theorem wrapInt32_of_range {x : ℤ} (hl : -2147483648 ≤ x) (hu : x ≤ 2147483647) :
    wrapInt32 x = x := Int32.toInt_ofInt_of_le hl (Int.lt_add_one_of_le hu)

namespace NetStopwatch

def new : NetStopwatch := ⟨0, 0, false⟩

def stop (s : NetStopwatch) (now : ℤ) : NetStopwatch :=
  if s.running then { s with lastTime := now - s.start, running := false } else s

def restart (s : NetStopwatch) (now : ℤ) : NetStopwatch :=
  { s with start := now, running := true }

/-- The duration as an `int32_t`. -/
def milliseconds (s : NetStopwatch) (now : ℤ) : ℤ :=
  wrapInt32 ((if s.running then now - s.start else s.lastTime).tdiv 1000000)

end NetStopwatch

inductive NetChannel where
  | reliable (ch : NetReliableChannel)
  | sequenced (ch : NetSequencedChannel)

namespace NetChannel

def processPacket (ch : NetChannel) (packet : NetPacket) : NetChannel × List PeerCall × Bool :=
  match ch with
  | .reliable ch => let r := ch.processPacket packet; (.reliable r.1, r.2)
  | .sequenced ch => let r := ch.processPacket packet; (.sequenced r.1, r.2)

def addToQueue (ch : NetChannel) (packet : NetPacket) : NetChannel × List PeerCall :=
  match ch with
  | .reliable ch => let r := ch.addToQueue packet; (.reliable r.1, r.2)
  | .sequenced ch => let r := ch.addToQueue packet; (.sequenced r.1, r.2)

def sendAndCheckQueue (ch : NetChannel) (ctx : ChannelContext) :
    NetChannel × List PeerCall × Bool :=
  match ch with
  | .reliable ch => let r := ch.sendAndCheckQueue ctx; (.reliable r.1, r.2)
  | .sequenced ch => let r := ch.sendAndCheckQueue ctx; (.sequenced r.1, r.2)

/-- The kind of channel that `create_channel` makes for an index. -/
def create (idx : UInt8) : NetChannel :=
  match idx.toNat % channelTypeCount with
  | 0 => .reliable (.new false idx)
  | 1 => .sequenced (.new false idx)
  | 2 => .reliable (.new true idx)
  | _ => .sequenced (.new true idx)

end NetChannel

structure IncomingFragments where
  fragments : List (Option NetPacket)
  receivedCount : ℕ
  totalSize : ℕ
  channelId : UInt8

def shutdownDelay : ℤ := 300
def mtuCheckDelay : ℤ := 1000
def maxMtuCheckAttempts : ℤ := 4

structure NetPeer where
  id : ℕ
  remoteId : Int32
  timeSinceLastPacket : ℤ
  mtuIdx : ℕ
  mtu : ℕ
  mtuCheckAttempts : ℤ
  mtuCheckTimer : ℤ
  finishMtu : Bool
  pingTimer : NetStopwatch
  pingSendTimer : ℤ
  rtt : ℤ
  avgRtt : ℤ
  rttCount : ℤ
  rttResetTimer : ℤ
  resendDelay : ℚ
  connectionState : ConnectionState
  endpoint : NetAddress
  shutdownPacket : NetPacket
  shutdownTimer : ℤ
  connectTime : Int64
  connectNumber : UInt8
  connectTimer : ℤ
  connectAttempts : ℤ
  pongPacket : NetPacket
  pingPacket : NetPacket
  connectRequestPacket : Option NetPacket
  connectAcceptPacket : Option NetPacket
  unreliableChannel : List NetPacket
  channelSendQueue : List UInt8
  /-- `m_channels.size()` -/
  channelCount : ℕ
  channels : UInt8 → Option NetChannel
  fragmentId : ℕ
  holdedFragments : ℕ → Option IncomingFragments
  deliveredFragments : ℕ → Option ℕ
  mergeData : NetPacket
  mergePos : ℕ
  mergeCount : ℕ

namespace NetPeer

def setMtu (p : NetPeer) (mtuIdx : ℕ) : NetPeer :=
  { p with mtuIdx := mtuIdx, mtu := possibleMtu.getD mtuIdx 0 }

def resetMtu (p : NetPeer) : NetPeer := p.setMtu 0

/-- The common constructor. -/
def new (channelsCount : ℕ) (endpoint : NetAddress) (id : ℕ) : NetPeer :=
  resetMtu {
    id := id
    remoteId := 0
    timeSinceLastPacket := 0
    mtuIdx := 0
    mtu := 0
    mtuCheckAttempts := 0
    mtuCheckTimer := 0
    finishMtu := false
    pingTimer := .new
    pingSendTimer := 0
    rtt := 0
    avgRtt := 0
    rttCount := 0
    rttResetTimer := 0
    resendDelay := 27
    connectionState := .connected
    endpoint := endpoint
    shutdownPacket := .new .disconnect 0 (by decide)
    shutdownTimer := 0
    connectTime := 0
    connectNumber := 0
    connectTimer := 0
    connectAttempts := 0
    pongPacket := .new .pong 0 (by decide)
    pingPacket := .new .ping 0 (by decide)
    connectRequestPacket := none
    connectAcceptPacket := none
    unreliableChannel := []
    channelSendQueue := []
    channelCount := channelsCount * channelTypeCount
    channels := fun _ => none
    fragmentId := 0
    holdedFragments := fun _ => none
    deliveredFragments := fun _ => none
    mergeData := .new .merged maxPacketSize (by decide)
    mergePos := 0
    mergeCount := 0 }

def updateRoundtripTime (p : NetPeer) (roundTripTime : ℤ) : NetPeer :=
  let rtt := p.rtt + roundTripTime
  let rttCount := p.rttCount + 1
  let avgRtt := rtt.tdiv rttCount
  { p with rtt := rtt, rttCount := rttCount, avgRtt := avgRtt, resendDelay := 25 + avgRtt * (21 / 10) }

/-- `isConnected` in `process_packet` and `process_disconnect`. -/
def isConnected (p : NetPeer) : Bool :=
  p.connectionState = .connected || p.connectionState = .outgoing

end NetPeer

/-- `net_event_create_args`, and the event made of it. -/
structure NetEvent where
  type : NetEventType := .connect
  peer : Option PeerRef := none
  /-- by default the address of family `AF_INET` that is otherwise zero -/
  remoteEndpoint : NetAddress := ⟨2, 0, 0, 0⟩
  socketErrorCode : ℕ := 0
  latency : ℤ := 0
  disconnectReason : DisconnectReason := .connectionFailed
  connectionRequest : Option RequestRef := none
  deliveryMethod : DeliveryMethod := .unreliable
  channelNumber : UInt8 := 0
  readerSource : Option NetPacket := none
  reader : Option NetDataReader := none
  errorMessage : Option String := none
  userData : ℕ := 0

structure NetConnectionRequest where
  used : Bool
  internalPacket : NetConnectRequestPacket
  remoteEndpoint : NetAddress
  result : ConnectionRequestResult

namespace NetConnectionRequest

def new (internalPacket : NetConnectRequestPacket) (remoteEndpoint : NetAddress) :
    NetConnectionRequest where
  used := false
  internalPacket := internalPacket
  remoteEndpoint := remoteEndpoint
  result := .none

def updateRequest (r : NetConnectionRequest) (connectRequest : NetConnectRequestPacket) :
    NetConnectionRequest :=
  if connectRequest.connectionTime < r.internalPacket.connectionTime then r
  else if connectRequest.connectionTime = r.internalPacket.connectionTime ∧
      connectRequest.connectionNumber = r.internalPacket.connectionNumber then r
  else { r with internalPacket := connectRequest }

end NetConnectionRequest

/-- The outcome of one `sendto`. -/
inductive SendResult where
  | ok
  | hostUnreachable
  | networkUnreachable
  | otherError
  deriving DecidableEq

/-- What is passed to `sendto`. -/
structure Datagram where
  endpoint : NetAddress
  bytes : Bytes

structure NetManager where
  running : Bool
  packetPoolSize : ℕ
  broadcastReceiveEnabled : Bool
  unconnectedMessagesEnabled : Bool
  channelsCount : ℕ
  disconnectTimeout : ℤ
  reconnectDelay : ℤ
  maxConnectAttempts : ℤ
  pingInterval : ℤ
  disconnectOnUnreachable : Bool
  packetPool : List NetPacket
  peerCount : ℕ
  peerAt : PeerRef → NetPeer
  peers : NetAddress.Key → Option PeerRef
  headPeer : Option PeerRef
  nextPeer : PeerRef → Option PeerRef
  prevPeer : PeerRef → Option PeerRef
  peersArray : ℕ → Option PeerRef
  peerIds : List ℕ
  peerIdCounter : ℕ
  requestCount : ℕ
  requestAt : RequestRef → NetConnectionRequest
  connectionRequests : NetAddress.Key → Option RequestRef
  events : List NetEvent
  sent : List Datagram
  currentTimes : Stream' Int64
  highResolutionTimes : Stream' ℤ
  sendResults : Stream' SendResult

/-- What the pool keeps: packets that are zero and no larger than a datagram. -/
structure Pooled (p : NetPacket) : Prop where
  zero : ∀ i, p.byte i = 0
  small : p.bufferSize ≤ maxPacketSize

namespace NetManager

/-- A running manager as it is constructed, with its clocks and the results of `sendto`. -/
def new (currentTimes : Stream' Int64) (highResolutionTimes : Stream' ℤ)
    (sendResults : Stream' SendResult) : NetManager where
  running := true
  packetPoolSize := 1000
  broadcastReceiveEnabled := false
  unconnectedMessagesEnabled := false
  channelsCount := 1
  disconnectTimeout := 5000
  reconnectDelay := 500
  maxConnectAttempts := 10
  pingInterval := 1000
  disconnectOnUnreachable := false
  packetPool := []
  peerCount := 0
  peerAt := fun _ => .new 1 ⟨2, 0, 0, 0⟩ 0
  peers := fun _ => none
  headPeer := none
  nextPeer := fun _ => none
  prevPeer := fun _ => none
  peersArray := fun _ => none
  peerIds := []
  peerIdCounter := 0
  requestCount := 0
  requestAt := fun _ => .new ⟨0, 0, ⟨2, 0, 0, 0⟩, ⟨[], 0, 0⟩, 0, .empty⟩ ⟨2, 0, 0, 0⟩
  connectionRequests := fun _ => none
  events := []
  sent := []
  currentTimes := currentTimes
  highResolutionTimes := highResolutionTimes
  sendResults := sendResults

def setPeer (m : NetManager) (r : PeerRef) (p : NetPeer) : NetManager :=
  { m with peerAt := Function.update m.peerAt r p }

@[simp] theorem setPeer_self (m : NetManager) (r : PeerRef) (p : NetPeer) :
    (m.setPeer r p).peerAt r = p := Function.update_self ..

theorem setPeer_of_ne (m : NetManager) {r r' : PeerRef} (h : r' ≠ r) (p : NetPeer) :
    (m.setPeer r p).peerAt r' = m.peerAt r' := Function.update_of_ne h ..

def tryGetPeer (m : NetManager) (endpoint : NetAddress) : Option PeerRef := m.peers endpoint.key

/-- `get_current_time()`. -/
def getCurrentTime (m : NetManager) : Int64 × NetManager :=
  (m.currentTimes.head, { m with currentTimes := m.currentTimes.tail })

/-- `high_resolution_clock::now()`. -/
def highResolutionNow (m : NetManager) : ℤ × NetManager :=
  (m.highResolutionTimes.head, { m with highResolutionTimes := m.highResolutionTimes.tail })

def logSent (m : NetManager) (d : Datagram) : NetManager := { m with sent := m.sent ++ [d] }

/-- The outcome of the next `sendto`. -/
def nextSendResult (m : NetManager) : SendResult × NetManager :=
  (m.sendResults.head, { m with sendResults := m.sendResults.tail })

def poolGetPacket (m : NetManager) (size : ℕ) : NetPacket × NetManager :=
  match m.packetPool with
  | [] => (NetPacket.empty.resize size, m)
  | packet :: pool => (packet.resize size, { m with packetPool := pool })

/-- A pool of zero packets hands out zero packets. -/
theorem poolGetPacket_zero {m : NetManager} (h : ∀ p ∈ m.packetPool, Pooled p) (size i : ℕ) :
    (m.poolGetPacket size).1.byte i = 0 := by
  rw [poolGetPacket]
  split
  · exact NetPacket.byte_resize_zero (p := .empty) (NetPacket.byte_alloc _ _ i) size
  · next packet pool hp =>
    exact NetPacket.byte_resize_zero ((h packet (hp ▸ List.mem_cons_self)).zero i) size

/-- A packet of a size that fits two bytes has a buffer of a size that fits eight. -/
theorem poolGetPacket_bufferSize {m : NetManager} (h : ∀ p ∈ m.packetPool, Pooled p) {size : ℕ}
    (hs : size < 65536) : (m.poolGetPacket size).1.bufferSize < 2 ^ 64 := by
  have hresize : ∀ p : NetPacket, p.bufferSize ≤ 65536 →
      (p.resize size).bufferSize < 2 ^ 64 := by
    intro p hp
    have hle := NetPacket.bufferSize_resize_le p size
    omega
  rw [poolGetPacket]
  split
  · exact hresize .empty (by decide +kernel)
  · next packet pool hp =>
    refine hresize packet ((h packet (hp ▸ List.mem_cons_self)).small.trans ?_)
    decide

def poolGetWithProperty (m : NetManager) (property : PacketProperty) (size : ℕ) :
    NetPacket × NetManager :=
  let got := m.poolGetPacket (property.getHeaderSize + size)
  (got.1.setProperty property, got.2)

def poolRecycle (m : NetManager) (packet : NetPacket) : NetManager :=
  if maxPacketSize < packet.bufferSize ∨ m.packetPoolSize ≤ m.packetPool.length then m
  else { m with packetPool := packet.clear :: m.packetPool }

/-- `pool_recycle` of a pointer that may be null. -/
def poolRecycleOption (m : NetManager) : Option NetPacket → NetManager
  | none => m
  | some packet => m.poolRecycle packet

def pushEvent (m : NetManager) (event : NetEvent) : NetManager :=
  { m with events := m.events ++ [event] }

def createEvent (m : NetManager) (args : NetEvent) : NetManager :=
  m.pushEvent <|
    match args.reader, args.readerSource with
    | none, some packet =>
      { args with reader := some ⟨packet.data, packet.size, packet.getHeaderSize⟩ }
    | _, _ => args

def createErrorEvent (m : NetManager) (socketErrorCode : ℕ) (errorMessage : String) : NetManager :=
  m.createEvent {
    type := .networkError
    socketErrorCode := socketErrorCode
    errorMessage := some errorMessage }

end NetManager

end LiteNet.Manager
