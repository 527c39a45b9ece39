import LiteNet.Library.Transition
import LiteNet.Manager.Registry

/-! # The manager as a state machine

`on_message_received`, `update_logic`, and the steps a running manager takes: what
arrives from the network, what the application calls and the passing of time, each
taken as atomic.
-/

namespace LiteNet.Manager
open Library Wire Channels

namespace NetPeer

def processDisconnect (p : NetPeer) (packet : NetPacket) : DisconnectResult :=
  if p.isConnected && 9 ≤ packet.size && packet.getInt64 1 = p.connectTime &&
      packet.connectionNumber = p.connectNumber then
    if p.connectionState = .connected then .disconnect else .reject
  else .none

/-- The new state of the peer when the packet connects it. -/
def processConnectAccept (p : NetPeer) (packet : NetConnectAcceptPacket) : Option NetPeer :=
  if p.connectionState ≠ .outgoing then none
  else if packet.connectionTime ≠ p.connectTime then none
  else some { p with
    connectNumber := packet.connectionNumber
    remoteId := packet.peerId
    timeSinceLastPacket := 0
    connectionState := .connected }

end NetPeer

namespace NetManager

/-- The case `PEER_NOT_FOUND` for an address that has a peer. -/
def onPeerNotFound (m : NetManager) (r : PeerRef) (packet : NetPacket) (addr : NetAddress) :
    NetManager :=
  let p := m.peerAt r
  if p.connectionState ≠ .connected then m.poolRecycle packet
  else if packet.size = 1 then
    let p := p.resetMtu
    ((m.setPeer r p).sendRawAndRecycle
      (NetConnectAcceptPacket.makeNetworkChanged p.connectTime p.connectNumber p.remoteId) addr).1
  else if packet.size = 2 ∧ packet.byte 1 = 1 then
    m.disconnectPeerForce p.endpoint .peerNotFound 0 none
  else if 1 < packet.size then
    let got := (m.poolRecycle packet).poolGetWithProperty .peerNotFound 1
    (got.2.sendRawAndRecycle (got.1.setByte 1 1) addr).1
  else m

/-- The case `DISCONNECT`. -/
def onDisconnect (m : NetManager) (peer : Option PeerRef) (packet : NetPacket)
    (addr : NetAddress) : NetManager :=
  let shutdownOk (m : NetManager) : NetManager :=
    let got := m.poolGetWithProperty .shutdownOk 0
    (got.2.sendRawAndRecycle got.1 addr).1
  match peer with
  | none => shutdownOk (m.poolRecycle packet)
  | some r =>
    match (m.peerAt r).processDisconnect packet with
    | .none => m.poolRecycle packet
    | .disconnect => shutdownOk (m.disconnectPeerForce (m.peerAt r).endpoint
        .remoteConnectionClose 0 (some packet))
    | .reject => shutdownOk (m.disconnectPeerForce (m.peerAt r).endpoint
        .connectionRejected 0 (some packet))

/-- The case `CONNECT_ACCEPT`. -/
def onConnectAccept (m : NetManager) (peer : Option PeerRef) (packet : NetPacket) : NetManager :=
  match peer with
  | none => m.poolRecycle packet
  | some r =>
    match (NetConnectAcceptPacket.fromData packet).bind (m.peerAt r).processConnectAccept with
    | none => m.poolRecycle packet
    | some p => ((m.setPeer r p).createEvent { type := .connect, peer := some r }).poolRecycle packet

def onConnectRequest (m : NetManager) (peer : Option PeerRef) (packet : NetPacket)
    (addr : NetAddress) : NetManager :=
  if NetConnectRequestPacket.getProtocolId packet ≠ .ofNat protocolId then
    let got := m.poolGetWithProperty .invalidProtocol 0
    (got.2.sendRawAndRecycle got.1 addr).1.poolRecycle packet
  else
    match NetConnectRequestPacket.fromData packet with
    | none => m.poolRecycle packet
    | some request => m.processConnectRequest addr peer request

/-- The cases `BROADCAST` and `UNCONNECTED_MESSAGE`. -/
def onUnconnected (m : NetManager) (enabled : Bool) (type : NetEventType) (packet : NetPacket)
    (addr : NetAddress) : NetManager :=
  if !enabled then m.poolRecycle packet
  else m.createEvent { type := type, remoteEndpoint := addr, readerSource := some packet }

/-- The cases that belong to a session. -/
def onSessionPacket (m : NetManager) (peer : Option PeerRef) (packet : NetPacket)
    (addr : NetAddress) : NetManager :=
  match peer with
  | some r => m.processPacket r packet
  | none =>
    let got := (m.poolRecycle packet).poolGetWithProperty .peerNotFound 0
    (got.2.sendRawAndRecycle got.1 addr).1

def onMessageReceived (m : NetManager) (packet : NetPacket) (addr : NetAddress) : NetManager :=
  if !packet.verify then m.poolRecycle packet
  else
    let netPeer := m.tryGetPeer addr
    match packet.property with
    | .connectRequest => m.onConnectRequest netPeer packet addr
    | .broadcast => m.onUnconnected m.broadcastReceiveEnabled .broadcast packet addr
    | .unconnectedMessage =>
      m.onUnconnected m.unconnectedMessagesEnabled .receiveUnconnected packet addr
    | .peerNotFound =>
      match netPeer with
      | none => m
      | some r => m.onPeerNotFound r packet addr
    | .invalidProtocol =>
      match netPeer with
      | none => m
      | some r =>
        if (m.peerAt r).connectionState = .outgoing then
          m.disconnectPeerForce (m.peerAt r).endpoint .invalidProtocol 0 none
        else m
    | .disconnect => m.onDisconnect netPeer packet addr
    | .connectAccept => m.onConnectAccept netPeer packet
    | _ => m.onSessionPacket netPeer packet addr

/-- One round of `receive_logic`: `recvfrom` into a packet of the pool. -/
def receiveLogic (m : NetManager) (bytes : Bytes) (addr : NetAddress) : NetManager :=
  let got := m.poolGetPacket maxPacketSize
  got.2.onMessageReceived ((got.1.write 0 bytes).resize bytes.length) addr

/-- The loop of `update_logic` over the list of peers, and the addresses it wants removed. -/
def updatePeers (elapsed : ℤ) : ℕ → Option PeerRef → NetManager → NetManager × List NetAddress
  | fuel + 1, some r, m =>
    let p := m.peerAt r
    if p.connectionState = .disconnected ∧ m.disconnectTimeout < p.timeSinceLastPacket then
      let rest := updatePeers elapsed fuel (m.nextPeer r) m
      (rest.1, p.endpoint :: rest.2)
    else
      let m := m.update r elapsed
      updatePeers elapsed fuel (m.nextPeer r) m
  | _, _, m => (m, [])

/-- One round of `update_logic`. -/
def updateLogic (m : NetManager) (elapsed : ℤ) : NetManager :=
  let updated := updatePeers elapsed m.peerCount m.headPeer m
  updated.2.foldl removePeerInternal updated.1

/-- `net_event::recycle`. -/
def recycleEvent (m : NetManager) (event : NetEvent) : NetManager :=
  let m := m.poolRecycleOption event.readerSource
  match event.connectionRequest with
  | none => m
  | some q => m.poolRecycle (m.requestAt q).internalPacket.packet

/-- A manager before its first packet. -/
structure Initial (m : NetManager) : Prop where
  packetPool : m.packetPool = []
  peerCount : m.peerCount = 0
  peers : ∀ k, m.peers k = none
  headPeer : m.headPeer = none
  nextPeer : ∀ r, m.nextPeer r = none
  prevPeer : ∀ r, m.prevPeer r = none
  requestCount : m.requestCount = 0
  connectionRequests : ∀ k, m.connectionRequests k = none
  events : m.events = []
  sent : m.sent = []

/-- What can happen to a manager. -/
inductive Action where
  | receive (bytes : Bytes) (addr : NetAddress)
  | updateLogic (elapsed : ℤ)
  | recycleEvent (event : NetEvent)
  | connect (address : NetAddress) (connectData : Bytes) (uninitialized : UInt8)
  | accept (q : RequestRef)
  | acceptIfKey (q : RequestRef) (expectedKey : Bytes)
  | reject (q : RequestRef) (rejectData : Option Bytes) (offset size : ℕ) (force : Bool)
  | disconnectAll (data : Option Bytes) (offset size : ℕ)
  | send (r : PeerRef) (data : Bytes) (offset size : ℕ) (channelNumber : UInt8)
      (deliveryMethod : DeliveryMethod) (userData : ℕ)

/-- A datagram fits the receive buffer, and the application uses objects it was given. -/
def Action.Enabled (m : NetManager) : Action → Prop
  | .receive bytes _ => bytes.length ≤ maxPacketSize
  | .updateLogic elapsed => 1 ≤ elapsed
  | .recycleEvent event => event ∈ m.events
  | .connect .. => True
  | .accept q => q < m.requestCount
  | .acceptIfKey q _ => q < m.requestCount
  | .reject q .. => q < m.requestCount
  | .disconnectAll .. => True
  | .send r .. => r < m.peerCount

/-- The request that an action answers. -/
def Action.answered : Action → Option RequestRef
  | .accept q => some q
  | .acceptIfKey q _ => some q
  | .reject q .. => some q
  | _ => none

def act (m : NetManager) : Action → NetManager
  | .receive bytes addr => m.receiveLogic bytes addr
  | .updateLogic elapsed => m.updateLogic elapsed
  | .recycleEvent event => m.recycleEvent event
  | .connect address connectData uninitialized => (m.connect address connectData uninitialized).1
  | .accept q => (m.accept q).1
  | .acceptIfKey q expectedKey => (m.acceptIfKey q expectedKey).1
  | .reject q rejectData offset size force => m.reject q rejectData offset size force
  | .disconnectAll data offset size => m.disconnectAll data offset size
  | .send r data offset size channelNumber deliveryMethod userData =>
    m.sendInternal r data offset size channelNumber deliveryMethod userData

def Step (m m' : NetManager) : Prop := ∃ a : Action, a.Enabled m ∧ m.act a = m'

end NetManager

end LiteNet.Manager
