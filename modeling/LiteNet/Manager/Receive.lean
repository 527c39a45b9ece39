import LiteNet.Manager.Calls

/-! # Packets of a session

`net_peer::process_packet`. A merged packet holds further packets, merged ones
included, so the function calls itself on what it takes out of one.
-/

namespace LiteNet.Manager
open Library Wire Channels

namespace NetPeer

def createChannel (p : NetPeer) (idx : UInt8) : NetPeer :=
  match p.channels idx with
  | some _ => p
  | none => { p with channels := Function.update p.channels idx (some (.create idx)) }

end NetPeer

namespace NetManager

def connectionLatencyUpdated (m : NetManager) (address : NetAddress) (latency : ℤ) : NetManager :=
  match m.tryGetPeer address with
  | none => m
  | some r =>
    m.createEvent { type := .connectionLatencyUpdated, peer := some r, latency := latency }

def processPing (m : NetManager) (r : PeerRef) (packet : NetPacket) : NetManager :=
  let p := m.peerAt r
  if 0 < relativeSequenceNumber packet.sequence p.pongPacket.sequence then
    let clock := m.getCurrentTime
    let pongPacket := (p.pongPacket.setInt64 clock.1 3).setSequence packet.sequence
    let m := clock.2.setPeer r { p with pongPacket := pongPacket }
    (m.sendRaw pongPacket.wire p.endpoint).1.poolRecycle packet
  else m.poolRecycle packet

def processPong (m : NetManager) (r : PeerRef) (packet : NetPacket) : NetManager :=
  let p := m.peerAt r
  if packet.sequence = p.pingPacket.sequence then
    let clock := m.highResolutionNow
    let pingTimer := p.pingTimer.stop clock.1
    let elapsedMs := pingTimer.milliseconds clock.1
    let m := clock.2.getCurrentTime.2
    let m := m.setPeer r ({ p with pingTimer := pingTimer }.updateRoundtripTime elapsedMs)
    (m.connectionLatencyUpdated p.endpoint (elapsedMs.tdiv 2)).poolRecycle packet
  else m.poolRecycle packet

def processChanneled (m : NetManager) (r : PeerRef) (packet : NetPacket) : NetManager :=
  let p := m.peerAt r
  let idx := packet.channelId
  if p.channelCount < idx.toNat then m.poolRecycle packet
  else
    let p := if packet.property = .ack then p else p.createChannel idx
    match p.channels idx with
    | none => m.poolRecycle packet
    | some channel =>
      let processed := channel.processPacket packet
      let m := m.setPeer r { p with channels := Function.update p.channels idx (some processed.1) }
      let m := m.applyCalls r idx processed.2.1
      if processed.2.2 then m else m.poolRecycle packet

def processMtuPacket (m : NetManager) (r : PeerRef) (packet : NetPacket) : NetManager :=
  let p := m.peerAt r
  if packet.size < possibleMtu.getD 0 0 then m.poolRecycle packet
  else
    let receivedMtu := (packet.getInt32 1).toInt
    let endMtuCheck := (packet.getInt32 (packet.size - 4)).toInt
    if receivedMtu ≠ packet.size ∨ receivedMtu ≠ endMtuCheck ∨ (maxPacketSize : ℤ) < receivedMtu then
      m.poolRecycle packet
    else if packet.property = .mtuCheck then
      let m := m.setPeer r { p with mtuCheckAttempts := 0 }
      (m.sendRawAndRecycle (packet.setProperty .mtuOk) p.endpoint).1
    else if receivedMtu ≤ p.mtu ∨ p.finishMtu then m.poolRecycle packet
    else if receivedMtu ≠ (possibleMtu.getD (p.mtuIdx + 1) 0 : ℕ) then m.poolRecycle packet
    else
      let p := p.setMtu (p.mtuIdx + 1)
      let p := if p.mtuIdx = possibleMtu.length - 1 then { p with finishMtu := true } else p
      (m.setPeer r p).poolRecycle packet

/-- The loop over the packets in a merged packet, with `process_packet` as a parameter. What lies
behind the buffer is zero here. -/
def processMerged (process : NetManager → NetPacket → NetManager) (packet : NetPacket) :
    ℕ → ℕ → NetManager → NetManager
  | 0, _, m => m
  | fuel + 1, pos, m =>
    if packet.size ≤ pos then m
    else
      let size := packet.getValueAt pos 2
      let pos := pos + 2
      if sizeSub packet.bufferSize pos < size then m
      else
        let got := m.poolGetPacket size
        let mergedPacket := got.1.write 0 (readBytes packet.data pos size)
        if !mergedPacket.verify then got.2
        else processMerged process packet fuel (pos + size) (process got.2 mergedPacket)

/-- The body of `process_packet`; `process` is the recursive call. -/
def processPacketWith (process : NetManager → NetPacket → NetManager) (m : NetManager)
    (r : PeerRef) (packet : NetPacket) : NetManager :=
  let p := m.peerAt r
  if !p.isConnected then m.poolRecycle packet
  else if packet.property = .shutdownOk then
    let p := if p.connectionState = .shutdownRequested
      then { p with connectionState := .disconnected } else p
    (m.setPeer r p).poolRecycle packet
  else if packet.connectionNumber ≠ p.connectNumber then m.poolRecycle packet
  else
    let m := m.setPeer r { p with timeSinceLastPacket := 0 }
    match packet.property with
    | .merged => (processMerged process packet packet.size headerSize m).poolRecycle packet
    | .ping => m.processPing r packet
    | .pong => m.processPong r packet
    | .ack => m.processChanneled r packet
    | .channeled => m.processChanneled r packet
    | .unreliable => m.createReceiveEvent packet .unreliable 0 headerSize p.endpoint
    | .mtuCheck => m.processMtuPacket r packet
    | .mtuOk => m.processMtuPacket r packet
    | _ => m

/-- `process_packet` for packets merged at most `depth` deep. -/
def processPacketTo (r : PeerRef) : ℕ → NetManager → NetPacket → NetManager
  | 0, m, _ => m
  | depth + 1, m, packet => m.processPacketWith (processPacketTo r depth) r packet

/-- Every level of merging moves the bytes of the outermost packet at least three places down, so
its buffer bounds the depth. -/
def processPacket (m : NetManager) (r : PeerRef) (packet : NetPacket) : NetManager :=
  processPacketTo r (packet.bufferSize + 1) m packet

end NetManager

end LiteNet.Manager
