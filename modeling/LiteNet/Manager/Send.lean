import LiteNet.Manager.State

/-! # Sending, and what ends a session

A send that reports an unreachable host or network may disconnect the peer it was
meant for, so the forced shutdown, which sends nothing, comes before `send_raw`
and the graceful one after it.
-/

namespace LiteNet.Manager
open Library Wire Channels

/-- `EHOSTUNREACH` and `ENETUNREACH`. -/
def hostUnreachableCode : ℕ := 113
def networkUnreachableCode : ℕ := 101

namespace NetPeer

/-- The checks of `shutdown` and its forced branch. -/
def shutdownForce (p : NetPeer) : NetPeer × ShutdownResult :=
  match p.connectionState with
  | .disconnected => (p, .none)
  | .shutdownRequested => (p, .none)
  | .connected => ({ p with connectionState := .disconnected }, .wasConnected)
  | .outgoing => ({ p with connectionState := .disconnected }, .success)

/-- The disconnect packet of a peer, with as much additional data as fits the smallest MTU. -/
def fillShutdownPacket (p : NetPeer) (rejectData : Option Bytes) (offset size : ℕ) : NetPacket :=
  let packet := p.shutdownPacket.resize (size + PacketProperty.disconnect.getHeaderSize)
  let packet := packet.setProperty .disconnect
  let packet := packet.setConnectionNumber p.connectNumber
  let packet := packet.setInt64 p.connectTime 1
  if possibleMtu.getD 0 0 ≤ packet.size then packet
  else
    match rejectData with
    | none => packet
    | some data => packet.copyFrom data offset 9 size

end NetPeer

namespace NetManager

/-- The end of `disconnect_peer`, after the shutdown of the peer. -/
def noteShutdown (m : NetManager) (r : PeerRef) (shutdownResult : ShutdownResult)
    (reason : DisconnectReason) (socketErrorCode : ℕ) (eventData : Option NetPacket) : NetManager :=
  if shutdownResult = .none then m.poolRecycleOption eventData
  else m.createEvent {
    type := .disconnect
    peer := some r
    socketErrorCode := socketErrorCode
    disconnectReason := reason
    readerSource := eventData }

def disconnectPeerForce (m : NetManager) (address : NetAddress) (reason : DisconnectReason)
    (socketErrorCode : ℕ) (eventData : Option NetPacket) : NetManager :=
  match m.tryGetPeer address with
  | none => m
  | some r =>
    let shut := (m.peerAt r).shutdownForce
    (m.setPeer r shut.1).noteShutdown r shut.2 reason socketErrorCode eventData

/-- What `send_raw` does about an unreachable endpoint. -/
def unreachable (m : NetManager) (endpoint : NetAddress) (reason : DisconnectReason)
    (errorCode : ℕ) : NetManager :=
  let m := if m.disconnectOnUnreachable then m.disconnectPeerForce endpoint reason errorCode none
    else m
  m.createEvent {
    type := .networkError
    socketErrorCode := errorCode
    errorMessage := some "Socket error"
    remoteEndpoint := endpoint }

def sendRaw (m : NetManager) (bytes : Bytes) (endpoint : NetAddress) : NetManager × ℤ :=
  let m := m.logSent ⟨endpoint, bytes⟩
  if !m.running then (m, 0)
  else
    let result := m.nextSendResult
    match result.1 with
    | .ok => (result.2, bytes.length)
    | .hostUnreachable => (result.2.unreachable endpoint .hostUnreachable hostUnreachableCode, -1)
    | .networkUnreachable =>
      (result.2.unreachable endpoint .networkUnreachable networkUnreachableCode, -1)
    | .otherError => (result.2, 0)

def sendRawAndRecycle (m : NetManager) (packet : NetPacket) (endpoint : NetAddress) :
    NetManager × ℤ :=
  let sent := m.sendRaw packet.wire endpoint
  (sent.1.poolRecycle packet, sent.2)

/-- `net_peer::shutdown`. -/
def shutdown (m : NetManager) (r : PeerRef) (rejectData : Option Bytes) (offset size : ℕ)
    (force : Bool) : NetManager × ShutdownResult :=
  let p := m.peerAt r
  let shut := p.shutdownForce
  if force || shut.2 = .none then (m.setPeer r shut.1, shut.2)
  else
    let packet := p.fillShutdownPacket rejectData offset size
    let p := { p with
      timeSinceLastPacket := 0
      shutdownPacket := packet
      connectionState := .shutdownRequested }
    (((m.setPeer r p).sendRaw packet.wire p.endpoint).1, shut.2)

def disconnectPeer (m : NetManager) (address : NetAddress) (reason : DisconnectReason)
    (socketErrorCode : ℕ) (force : Bool) (rejectData : Option Bytes) (offset size : ℕ)
    (eventData : Option NetPacket) : NetManager :=
  match m.tryGetPeer address with
  | none => m
  | some r =>
    let shut := m.shutdown r rejectData offset size force
    shut.1.noteShutdown r shut.2 reason socketErrorCode eventData

/-- A send is logged, and then the endpoint is unreachable or not. -/
theorem sendRaw_cases (m : NetManager) (bytes : Bytes) (endpoint : NetAddress) :
    ∃ sendResults,
      (m.sendRaw bytes endpoint).1 =
          { m.logSent ⟨endpoint, bytes⟩ with sendResults := sendResults } ∨
        ∃ reason code, (m.sendRaw bytes endpoint).1 =
          unreachable { m.logSent ⟨endpoint, bytes⟩ with sendResults := sendResults } endpoint
            reason code := by
  rw [sendRaw]
  dsimp only
  split
  · exact ⟨m.sendResults, .inl rfl⟩
  · refine ⟨m.sendResults.tail, ?_⟩
    split
    · exact .inl rfl
    · exact .inr ⟨.hostUnreachable, hostUnreachableCode, rfl⟩
    · exact .inr ⟨.networkUnreachable, networkUnreachableCode, rfl⟩
    · exact .inl rfl

end NetManager

end LiteNet.Manager
