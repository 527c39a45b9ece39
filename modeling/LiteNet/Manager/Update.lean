import LiteNet.Manager.Receive

/-! # Time passing, and sending by the application

`net_peer::update` with what it drives, and `net_peer::send_internal`.
-/

namespace LiteNet.Manager
open Library Wire Channels

namespace NetManager

def sendMtuCheck (m : NetManager) (newMtu : ℕ) (endpoint : NetAddress) : NetManager × ℤ :=
  let got := m.poolGetPacket newMtu
  let packet := got.1.setProperty .mtuCheck
  let packet := packet.setValueAt newMtu 1 4
  let packet := packet.setValueAt newMtu (packet.size - 4) 4
  got.2.sendRawAndRecycle packet endpoint

def updateMtuLogic (m : NetManager) (r : PeerRef) (deltaTime : ℤ) : NetManager :=
  let p := m.peerAt r
  if p.finishMtu then m
  else
    let p := { p with mtuCheckTimer := p.mtuCheckTimer + deltaTime }
    if p.mtuCheckTimer < mtuCheckDelay then m.setPeer r p
    else
      let p := { p with mtuCheckTimer := 0, mtuCheckAttempts := p.mtuCheckAttempts + 1 }
      if maxMtuCheckAttempts ≤ p.mtuCheckAttempts then m.setPeer r { p with finishMtu := true }
      else if possibleMtu.length - 1 ≤ p.mtuIdx then m.setPeer r p
      else
        let newMtu := possibleMtu.getD (p.mtuIdx + 1) 0
        let sent := (m.setPeer r p).sendMtuCheck newMtu p.endpoint
        if sent.2 ≤ 0 then sent.1.setPeer r { sent.1.peerAt r with finishMtu := true } else sent.1

/-- The ping of `update`. -/
def updatePing (m : NetManager) (r : PeerRef) (deltaTime : ℤ) : NetManager :=
  let p := m.peerAt r
  let p := { p with pingSendTimer := p.pingSendTimer + deltaTime }
  if m.pingInterval ≤ p.pingSendTimer then
    let clock := m.highResolutionNow
    let p := { p with
      pingSendTimer := 0
      pingPacket := p.pingPacket.setSequence ((p.pingPacket.sequence + 1) % 65536) }
    let p := if p.pingTimer.running
      then p.updateRoundtripTime (p.pingTimer.milliseconds clock.1) else p
    let p := { p with pingTimer := p.pingTimer.restart clock.1 }
    ((clock.2.setPeer r p).sendRaw p.pingPacket.wire p.endpoint).1
  else m.setPeer r p

/-- The round-trip reset of `update`. -/
def updateRtt (m : NetManager) (r : PeerRef) (deltaTime : ℤ) : NetManager :=
  let p := m.peerAt r
  let p := { p with rttResetTimer := p.rttResetTimer + deltaTime }
  if m.pingInterval * 3 < p.rttResetTimer then
    m.setPeer r { p with rttResetTimer := 0, rtt := p.avgRtt, rttCount := 1 }
  else m.setPeer r p

/-- The loop over the send queue: as many channels are taken as stand in it at the start. -/
def updateChannels (r : PeerRef) : ℕ → NetManager → NetManager
  | 0, m => m
  | count + 1, m =>
    let p := m.peerAt r
    match p.channelSendQueue with
    | [] => m
    | idx :: queue =>
      match p.channels idx with
      | none => m.setPeer r { p with channelSendQueue := queue }
      | some channel =>
        let clock := m.getCurrentTime
        let sent := channel.sendAndCheckQueue ⟨p.connectNumber, p.resendDelay, clock.1.toInt⟩
        let m := clock.2.setPeer r { p with
          channelSendQueue := queue
          channels := Function.update p.channels idx (some sent.1) }
        let m := m.applyCalls r idx sent.2.1
        let m :=
          if sent.2.2 then
            m.setPeer r { m.peerAt r with
              channelSendQueue := (m.peerAt r).channelSendQueue ++ [idx] }
          else m
        updateChannels r count m

def updateUnreliable (m : NetManager) (r : PeerRef) : NetManager :=
  let p := m.peerAt r
  p.unreliableChannel.foldl (fun m packet => (m.sendUserData r packet).poolRecycle packet)
    (m.setPeer r { p with unreliableChannel := [] })

/-- `update` of a connected peer after the timeout check. -/
def updateConnected (m : NetManager) (r : PeerRef) (deltaTime : ℤ) : NetManager :=
  let m := m.updatePing r deltaTime
  let m := m.updateRtt r deltaTime
  let m := m.updateMtuLogic r deltaTime
  let m := updateChannels r (m.peerAt r).channelSendQueue.length m
  let m := m.updateUnreliable r
  m.sendMerged r

/-- `update` of a peer that waits for its disconnect packet to be answered. -/
def updateShutdown (m : NetManager) (r : PeerRef) (deltaTime : ℤ) : NetManager :=
  let p := m.peerAt r
  if m.disconnectTimeout < p.timeSinceLastPacket then
    m.setPeer r { p with connectionState := .disconnected }
  else
    let p := { p with shutdownTimer := p.shutdownTimer + deltaTime }
    if shutdownDelay ≤ p.shutdownTimer then
      ((m.setPeer r { p with shutdownTimer := 0 }).sendRaw p.shutdownPacket.wire p.endpoint).1
    else m.setPeer r p

/-- `update` of a peer that waits for its connect request to be answered. -/
def updateOutgoing (m : NetManager) (r : PeerRef) (deltaTime : ℤ) : NetManager :=
  let p := m.peerAt r
  let p := { p with connectTimer := p.connectTimer + deltaTime }
  if m.reconnectDelay < p.connectTimer then
    let p := { p with connectTimer := 0, connectAttempts := p.connectAttempts + 1 }
    let m := m.setPeer r p
    if m.maxConnectAttempts < p.connectAttempts then
      m.disconnectPeerForce p.endpoint .connectionFailed 0 none
    else
      match p.connectRequestPacket with
      | none => m
      | some packet => (m.sendRaw packet.wire p.endpoint).1
  else m.setPeer r p

def update (m : NetManager) (r : PeerRef) (deltaTime : ℤ) : NetManager :=
  let p := m.peerAt r
  let p := { p with timeSinceLastPacket := wrapInt32 (p.timeSinceLastPacket + deltaTime) }
  let m := m.setPeer r p
  match p.connectionState with
  | .connected =>
    if m.disconnectTimeout < p.timeSinceLastPacket then
      m.disconnectPeerForce p.endpoint .timeout 0 none
    else m.updateConnected r deltaTime
  | .shutdownRequested => m.updateShutdown r deltaTime
  | .outgoing => m.updateOutgoing r deltaTime
  | .disconnected => m

/-- Hand a packet to the channel `idx`. -/
def addToQueue (m : NetManager) (r : PeerRef) (idx : UInt8) (packet : NetPacket) : NetManager :=
  let p := m.peerAt r
  match p.channels idx with
  | none => m
  | some channel =>
    let queued := channel.addToQueue packet
    let m := m.setPeer r { p with channels := Function.update p.channels idx (some queued.1) }
    m.applyCalls r idx queued.2

/-- The header of a fragment of a message. -/
def fragmentHeader (packet : NetPacket) (userData fragmentId fragmentPart totalFragments : ℕ) :
    NetPacket :=
  let packet := { packet.setProperty .channeled with userData := userData }
  let packet := packet.setFragmentId fragmentId
  let packet := packet.setFragmentPart fragmentPart
  let packet := packet.setTotalFragments totalFragments
  packet.markFragmented

/-- The loop over the fragments of a message. -/
def sendFragments (r : PeerRef) (idx : UInt8) (data : Bytes) (offset userData currentFragmentId
    packetDataSize totalPackets : ℕ) : ℕ → ℕ → ℕ → NetManager → NetManager
  | 0, _, _, m => m
  | fuel + 1, partIdx, size, m =>
    let sendLength := if packetDataSize < size then packetDataSize else size
    let got := m.poolGetPacket (channeledHeaderSize + sendLength + fragmentHeaderSize)
    let packet := fragmentHeader got.1 userData currentFragmentId partIdx totalPackets
    let packet := packet.copyFrom data (offset + partIdx * packetDataSize)
      fragmentedHeaderTotalSize sendLength
    sendFragments r idx data offset userData currentFragmentId packetDataSize totalPackets fuel
      (partIdx + 1) (size - sendLength) (got.2.addToQueue r idx packet)

def sendInternal (m : NetManager) (r : PeerRef) (data : Bytes) (offset size : ℕ)
    (channelNumber : UInt8) (deliveryMethod : DeliveryMethod) (userData : ℕ) : NetManager :=
  let p := m.peerAt r
  if p.connectionState ≠ .connected ∨ p.channelCount ≤ channelNumber.toNat then m
  else
    let property : PacketProperty :=
      if deliveryMethod = .unreliable then .unreliable else .channeled
    let idx := UInt8.ofNat (channelNumber.toNat * channelTypeCount + deliveryMethod.code)
    let p := if deliveryMethod = .unreliable then p else p.createChannel idx
    let m := m.setPeer r p
    let headerSize := property.getHeaderSize
    let mtu := p.mtu
    if mtu < size + headerSize then
      if deliveryMethod ≠ .reliableOrdered ∧ deliveryMethod ≠ .reliableUnordered then
        m.createErrorEvent 0 ("Unreliable or ReliableSequenced packet size exceeded maximum of " ++
          toString (mtu - headerSize) ++
          " bytes, Check allowed size by get_max_single_packet_size")
      else
        let packetDataSize := mtu - headerSize - fragmentHeaderSize
        let totalPackets := size / packetDataSize + if size % packetDataSize = 0 then 0 else 1
        if 65535 ≤ totalPackets then
          m.createErrorEvent 0 ("Data was split in " ++ toString totalPackets ++
            " fragments, which exceeds 65535")
        else
          let fragmentId := p.fragmentId + 1
          let m := m.setPeer r { p with fragmentId := fragmentId }
          sendFragments r idx data offset userData (fragmentId % 65536) packetDataSize totalPackets
            totalPackets 0 size m
    else
      let got := m.poolGetPacket (headerSize + size)
      let packet := { got.1.setProperty property with userData := userData }
      let packet := packet.copyFrom data offset headerSize size
      if deliveryMethod = .unreliable then
        got.2.setPeer r { p with unreliableChannel := p.unreliableChannel ++ [packet] }
      else got.2.addToQueue r idx packet

end NetManager

end LiteNet.Manager
