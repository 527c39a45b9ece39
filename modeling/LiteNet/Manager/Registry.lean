import LiteNet.Manager.Update

/-! # Who is connected

The peers of a manager, the requests that wait for the application's answer, and
the calls that make or drop either.
-/

namespace LiteNet.Manager
open Library Wire Channels

namespace NetManager

def getNextPeerId (m : NetManager) : ℕ × NetManager :=
  match m.peerIds with
  | id :: ids => (id, { m with peerIds := ids })
  | [] => (m.peerIdCounter, { m with peerIdCounter := m.peerIdCounter + 1 })

/-- `make_shared<net_peer>`. -/
def newPeer (m : NetManager) (p : NetPeer) : NetManager :=
  { m with peerCount := m.peerCount + 1, peerAt := Function.update m.peerAt m.peerCount p }

def addPeer (m : NetManager) (r : PeerRef) : NetManager :=
  let p := m.peerAt r
  let m :=
    match m.headPeer with
    | none => m
    | some head => { m with
        nextPeer := Function.update m.nextPeer r (some head)
        prevPeer := Function.update m.prevPeer head (some r) }
  { m with
    headPeer := some r
    -- `emplace` keeps an entry that is there
    peers := if (m.peers p.endpoint.key).isSome then m.peers
      else Function.update m.peers p.endpoint.key (some r)
    peersArray := Function.update m.peersArray p.id (some r) }

def removePeerInternal (m : NetManager) (address : NetAddress) : NetManager :=
  match m.peers address.key with
  | none => m
  | some r =>
    let next := m.nextPeer r
    let prev := m.prevPeer r
    { m with
      peers := Function.update m.peers address.key none
      headPeer := if m.headPeer = some r then next else m.headPeer
      nextPeer :=
        match prev with
        | none => m.nextPeer
        | some q => Function.update m.nextPeer q next
      prevPeer := Function.update
        (match next with
        | none => m.prevPeer
        | some q => Function.update m.prevPeer q prev) r none
      peersArray := Function.update m.peersArray (m.peerAt r).id none
      peerIds := m.peerIds ++ [(m.peerAt r).id] }

/-- The constructor that connects. -/
def newOutgoing (m : NetManager) (address : NetAddress) (connectNum : UInt8)
    (connectData : Bytes) : NetManager :=
  let numbered := m.getNextPeerId
  let clock := numbered.2.getCurrentTime
  let packet := (NetConnectRequestPacket.make connectData address clock.1
    (.ofNat numbered.1)).setConnectionNumber connectNum
  let p := { NetPeer.new m.channelsCount address numbered.1 with
    connectTime := clock.1
    connectionState := .outgoing
    connectNumber := connectNum
    connectRequestPacket := some packet }
  ((clock.2.newPeer p).sendRaw packet.wire address).1

/-- The connection number that follows `n`. -/
def nextConnectionNumber (n : UInt8) : UInt8 := UInt8.ofNat ((n.toNat + 1) % maxConnectionNumber)

/-- The connection number of a first connection is a local variable that is never written; its
value is `uninitialized`. -/
def connect (m : NetManager) (address : NetAddress) (connectData : Bytes)
    (uninitialized : UInt8) : NetManager × Option PeerRef :=
  if !m.running then (m, none)
  else if (m.connectionRequests address.key).isSome then (m, none)
  else
    match m.peers address.key with
    | none => ((m.newOutgoing address uninitialized connectData).addPeer m.peerCount, some m.peerCount)
    | some r =>
      if (m.peerAt r).isConnected then (m, some r)
      else
        let number := nextConnectionNumber (m.peerAt r).connectNumber
        let m := m.removePeerInternal address
        ((m.newOutgoing address number connectData).addPeer m.peerCount, some m.peerCount)

/-- The byte by byte comparison of two addresses, from the last byte down: the first difference
decides when it is in favour of the remote side, and the loop goes on when it is not. -/
def p2pLose : Bytes → Bytes → Bool
  | rb :: remoteBytes, lb :: localBytes =>
    if rb = lb then p2pLose remoteBytes localBytes
    else if rb < lb then true
    else p2pLose remoteBytes localBytes
  | _, _ => false

/-- `net_peer::process_connect_request`. -/
def peerProcessConnectRequest (m : NetManager) (r : PeerRef)
    (request : NetConnectRequestPacket) : NetManager × ConnectRequestResult :=
  let p := m.peerAt r
  match p.connectionState with
  | .outgoing =>
    if request.connectionTime < p.connectTime then (m, .p2pLose)
    else if request.connectionTime = p.connectTime &&
        p2pLose p.endpoint.raw.reverse request.targetAddress.raw.reverse then (m, .p2pLose)
    else (m, .none)
  | .connected =>
    if request.connectionTime = p.connectTime then
      match p.connectAcceptPacket with
      | none => (m, .none)
      | some packet => ((m.sendRaw packet.wire p.endpoint).1, .none)
    else if p.connectTime < request.connectionTime then (m, .reconnection)
    else (m, .none)
  | .disconnected =>
    if p.connectTime ≤ request.connectionTime then (m, .newConnection) else (m, .none)
  | .shutdownRequested =>
    if p.connectTime ≤ request.connectionTime then (m, .newConnection) else (m, .none)

/-- The end of `process_connect_request`: update the request that waits, or queue a new one. -/
def queueRequest (m : NetManager) (addr : NetAddress) (request : NetConnectRequestPacket) :
    NetManager :=
  match m.connectionRequests addr.key with
  | some q => { m with
      requestAt := Function.update m.requestAt q ((m.requestAt q).updateRequest request) }
  | none =>
    let q := m.requestCount
    let m := { m with
      requestCount := m.requestCount + 1
      requestAt := Function.update m.requestAt q (.new request addr)
      connectionRequests := Function.update m.connectionRequests addr.key (some q) }
    m.createEvent {
      type := .connectionRequest
      remoteEndpoint := addr
      connectionRequest := some q }

def processConnectRequest (m : NetManager) (addr : NetAddress) (peer : Option PeerRef)
    (request : NetConnectRequestPacket) : NetManager :=
  match peer with
  | none => m.queueRequest addr request
  | some r =>
    let processed := m.peerProcessConnectRequest r request
    let m := processed.1
    let number := nextConnectionNumber (m.peerAt r).connectNumber
    match processed.2 with
    | .reconnection =>
      ((m.disconnectPeerForce addr .reconnect 0 none).removePeerInternal addr).queueRequest addr
        { request with connectionNumber := number }
    | .newConnection =>
      (m.removePeerInternal addr).queueRequest addr { request with connectionNumber := number }
    | .p2pLose =>
      ((m.disconnectPeerForce addr .peerToPeerConnection 0 none).removePeerInternal
        addr).queueRequest addr request
    | .none => m.poolRecycle request.packet

/-- The constructor that accepts. -/
def newAccepted (m : NetManager) (request : NetConnectionRequest) : NetManager :=
  let numbered := m.getNextPeerId
  let packet := NetConnectAcceptPacket.make request.internalPacket.connectionTime
    request.internalPacket.connectionNumber numbered.1
  let p := { NetPeer.new m.channelsCount request.remoteEndpoint numbered.1 with
    connectTime := request.internalPacket.connectionTime
    connectNumber := request.internalPacket.connectionNumber
    remoteId := request.internalPacket.peerId
    connectAcceptPacket := some packet }
  ((numbered.2.newPeer p).sendRaw packet.wire request.remoteEndpoint).1

/-- A new peer that is rejected. -/
def newRejected (m : NetManager) (request : NetConnectionRequest) (rejectData : Option Bytes)
    (offset size : ℕ) : NetManager :=
  let numbered := m.getNextPeerId
  let p := { NetPeer.new m.channelsCount request.remoteEndpoint numbered.1 with
    connectTime := request.internalPacket.connectionTime
    connectNumber := request.internalPacket.connectionNumber }
  ((numbered.2.newPeer p).shutdown m.peerCount rejectData offset size false).1

/-- The disconnect packet of a forced rejection with data. -/
def rejectForce (m : NetManager) (request : NetConnectionRequest) (rejectData : Option Bytes)
    (offset size : ℕ) : NetManager :=
  match rejectData with
  | none => m
  | some data =>
    if size = 0 then m
    else
      let got := m.poolGetWithProperty .disconnect size
      let packet := got.1.setConnectionNumber request.internalPacket.connectionNumber
      let packet := if possibleMtu.getD 0 0 ≤ packet.size then packet
        else packet.write 9 (readBytes data offset size)
      (got.2.sendRawAndRecycle packet request.remoteEndpoint).1

def onConnectionSolved (m : NetManager) (q : RequestRef) (rejectData : Option Bytes)
    (offset size : ℕ) : NetManager × Option PeerRef :=
  let request := m.requestAt q
  let erase (m : NetManager) : NetManager := { m with
    connectionRequests := Function.update m.connectionRequests request.remoteEndpoint.key none }
  if request.result = .rejectForce then
    (erase (m.rejectForce request rejectData offset size), none)
  else if (m.peers request.remoteEndpoint.key).isSome then (erase m, none)
  else
    let r := m.peerCount
    if request.result = .reject then
      (erase ((m.newRejected request rejectData offset size).addPeer r), some r)
    else
      let m := (m.newAccepted request).addPeer r
      (erase (m.createEvent { type := .connect, peer := some r }), some r)

/-- `try_activate`, and the result the answer sets. -/
def activate (m : NetManager) (q : RequestRef) (result : ConnectionRequestResult) : NetManager :=
  let request := { m.requestAt q with used := true, result := result }
  { m with requestAt := Function.update m.requestAt q request }

def accept (m : NetManager) (q : RequestRef) : NetManager × Option PeerRef :=
  if (m.requestAt q).used then (m, none)
  else (m.activate q .accept).onConnectionSolved q none 0 0

/-- The reader of the request moves over what it has read. -/
def acceptIfKey (m : NetManager) (q : RequestRef) (expectedKey : Bytes) :
    NetManager × Option PeerRef :=
  if (m.requestAt q).used then (m, none)
  else
    let request := m.requestAt q
    let key := request.internalPacket.data.tryReadString
    let request := { request with internalPacket.data := key.2 }
    let m := { m with requestAt := Function.update m.requestAt q request }
    if key.1 = some expectedKey then (m.activate q .accept).onConnectionSolved q none 0 0
    else (((m.activate q .reject).onConnectionSolved q none 0 0).1, none)

def reject (m : NetManager) (q : RequestRef) (rejectData : Option Bytes) (offset size : ℕ)
    (force : Bool) : NetManager :=
  if (m.requestAt q).used then m
  else
    ((m.activate q (if force then .rejectForce else .reject)).onConnectionSolved q rejectData
      offset size).1

/-- The addresses of the peers in the list from `peer` on. -/
def peerAddresses (m : NetManager) : ℕ → Option PeerRef → List NetAddress
  | fuel + 1, some r => (m.peerAt r).endpoint :: m.peerAddresses fuel (m.nextPeer r)
  | _, _ => []

def disconnectAll (m : NetManager) (data : Option Bytes) (offset size : ℕ) : NetManager :=
  (m.peerAddresses m.peerCount m.headPeer).foldl
    (fun m addr => m.disconnectPeer addr .disconnectPeerCalled 0 false data offset size none) m

end NetManager

end LiteNet.Manager
