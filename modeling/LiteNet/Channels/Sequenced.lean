import LiteNet.Channels.Base

/-! # The sequenced channel

Only the newest packet counts. The reliable kind keeps the last packet it sent and
sends it again until an acknowledgement with the same number comes back.
-/

namespace LiteNet.Channels
open Library Wire

structure NetSequencedChannel where
  base : NetBaseChannel
  reliable : Bool
  id : UInt8
  localSequence : ℕ
  remoteSequence : ℕ
  ackPacket : Option NetPacket
  lastPacket : Option NetPacket
  lastPacketSendTime : ℤ
  mustSendAck : Bool

namespace NetSequencedChannel

/-- The acknowledgement packet is built without a channel id. -/
def new (reliable : Bool) (id : UInt8) : NetSequencedChannel where
  base := .new
  reliable := reliable
  id := id
  localSequence := 0
  remoteSequence := 0
  ackPacket := if reliable then some (.new .ack 0 (by decide)) else none
  lastPacket := none
  lastPacketSendTime := 0
  mustSendAck := false

def deliveryMethod (ch : NetSequencedChannel) : DeliveryMethod :=
  if ch.reliable then .reliableSequenced else .sequenced

/-- An acknowledgement releases the last packet when it names its number. -/
def processAck (ch : NetSequencedChannel) (packet : NetPacket) :
    NetSequencedChannel × List PeerCall :=
  match ch.lastPacket with
  | none => (ch, [])
  | some last =>
    if ch.reliable && packet.sequence = last.sequence then
      ({ ch with lastPacket := none }, [.poolRecycle last])
    else (ch, [])

/-- The data branch of `process_packet`: a newer packet is delivered. -/
def processData (ch : NetSequencedChannel) (packet : NetPacket) :
    NetSequencedChannel × List PeerCall × Bool :=
  let relative := relativeSequenceNumber packet.sequence ch.remoteSequence
  if packet.sequence < maxSequence ∧ 0 < relative then
    ({ ch with remoteSequence := packet.sequence },
      [.createReceiveEvent packet ch.deliveryMethod
        (UInt8.ofNat (packet.channelId.toNat / channelTypeCount)) channeledHeaderSize], true)
  else (ch, [], false)

def processPacket (ch : NetSequencedChannel) (packet : NetPacket) :
    NetSequencedChannel × List PeerCall × Bool :=
  if packet.isFragmented then (ch, [], false)
  else if packet.property = .ack then
    let acked := ch.processAck packet
    (acked.1, acked.2, false)
  else
    let processed := ch.processData packet
    if ch.reliable then
      let queued := processed.1.base.addToPeerChannelSendQueue
      ({ processed.1 with mustSendAck := true, base := queued.1 },
        processed.2.1 ++ queued.2, processed.2.2)
    else processed

/-- The loop that numbers and sends every queued packet; the reliable kind keeps the last one. -/
def sendQueued (ctx : ChannelContext) :
    List NetPacket → NetSequencedChannel → NetSequencedChannel × List PeerCall
  | [], ch => ({ ch with base := { ch.base with outgoingQueue := [] } }, [])
  | packet :: queue, ch =>
    let localSequence := (ch.localSequence + 1) % maxSequence
    let packet := ((packet.setSequence localSequence).setChannelId ch.id).setConnectionNumber
      ctx.connectNumber
    let ch := { ch with localSequence := localSequence }
    if ch.reliable && queue.isEmpty then
      let rest := sendQueued ctx queue
        { ch with lastPacketSendTime := ctx.currentTime, lastPacket := some packet }
      (rest.1, .sendUserData packet :: rest.2)
    else
      let rest := sendQueued ctx queue ch
      (rest.1, .sendUserData packet :: .poolRecycle packet :: rest.2)

/-- Send the last packet again when it has been held for the resend delay. -/
def resendLast (ch : NetSequencedChannel) (ctx : ChannelContext) :
    NetSequencedChannel × List PeerCall :=
  let packetHoldTime := ctx.currentTime - ch.lastPacketSendTime
  if ctx.resendDelay * ticksPerMillisecond ≤ (packetHoldTime : ℚ) then
    match ch.lastPacket with
    | none => (ch, [])
    | some packet =>
      let packet := packet.setConnectionNumber ctx.connectNumber
      ({ ch with lastPacketSendTime := ctx.currentTime, lastPacket := some packet },
        [.sendUserData packet])
  else (ch, [])

def sendAck (ch : NetSequencedChannel) (ctx : ChannelContext) :
    NetSequencedChannel × List PeerCall :=
  match ch.ackPacket with
  | none => (ch, [])
  | some ack =>
    if ch.reliable && ch.mustSendAck then
      let ack := (ack.setSequence ch.remoteSequence).setConnectionNumber ctx.connectNumber
      ({ ch with mustSendAck := false, ackPacket := some ack }, [.sendUserData ack])
    else (ch, [])

def sendNextPackets (ch : NetSequencedChannel) (ctx : ChannelContext) :
    NetSequencedChannel × List PeerCall × Bool :=
  let sent :=
    if ch.reliable && ch.base.outgoingQueue.isEmpty then ch.resendLast ctx
    else sendQueued ctx ch.base.outgoingQueue ch
  let acked := sent.1.sendAck ctx
  (acked.1, sent.2 ++ acked.2, acked.1.lastPacket.isSome)

def addToQueue (ch : NetSequencedChannel) (packet : NetPacket) :
    NetSequencedChannel × List PeerCall :=
  let queued := ch.base.addToQueue packet
  ({ ch with base := queued.1 }, queued.2)

def sendAndCheckQueue (ch : NetSequencedChannel) (ctx : ChannelContext) :
    NetSequencedChannel × List PeerCall × Bool :=
  let sent := ch.sendNextPackets ctx
  ({ sent.1 with base := sent.1.base.checkQueue sent.2.2 }, sent.2.1, sent.2.2)

end NetSequencedChannel

end LiteNet.Channels
