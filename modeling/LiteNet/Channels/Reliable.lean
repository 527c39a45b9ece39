import LiteNet.Library.RingWindow
import LiteNet.Channels.Base

/-! # The reliable channel

Both directions of one channel: the send window with its ring of pending packets,
and the receive window with the acknowledgement bitmap and the ring of held
packets (ordered) or early marks (unordered).
-/

namespace LiteNet.Channels
open Library Wire

abbrev windowSize : ℕ := defaultWindowSize

instance : NeZero windowSize := ⟨by decide⟩

abbrev Ring (α : Type) := Fin windowSize → α

/-- The slot `sequence % m_window_size` of a ring. -/
abbrev ringSlot (sequence : ℕ) : Fin windowSize := slot windowSize sequence

def bitsInByte : ℕ := 8

/-- The byte of the acknowledgement packet that holds an index of the window. -/
def ackByte (ackIdx : ℕ) : ℕ := channeledHeaderSize + ackIdx / bitsInByte

def testAckBit (p : NetPacket) (ackIdx : ℕ) : Bool :=
  p.byte (ackByte ackIdx) &&& bitMask (ackIdx % bitsInByte) != 0

def setAckBit (p : NetPacket) (ackIdx : ℕ) : NetPacket :=
  p.setByte (ackByte ackIdx) (p.byte (ackByte ackIdx) ||| bitMask (ackIdx % bitsInByte))

def clearAckBit (p : NetPacket) (ackIdx : ℕ) : NetPacket :=
  p.setByte (ackByte ackIdx) (p.byte (ackByte ackIdx) &&& ~~~bitMask (ackIdx % bitsInByte))

structure PendingPacket where
  packet : Option NetPacket
  timestamp : ℤ
  isSent : Bool

namespace PendingPacket

def new : PendingPacket where
  packet := none
  timestamp := 0
  isSent := false

def init (pending : PendingPacket) (packet : NetPacket) : PendingPacket :=
  { pending with packet := some packet, isSent := false }

/-- A sent packet is still waiting while it has been held for less than the resend delay. -/
def waiting (pending : PendingPacket) (ctx : ChannelContext) : Bool :=
  pending.isSent &&
    ((ctx.currentTime - pending.timestamp : ℤ) : ℚ) < ctx.resendDelay * ticksPerMillisecond

def trySend (pending : PendingPacket) (ctx : ChannelContext) :
    PendingPacket × List PeerCall × Bool :=
  match pending.packet with
  | none => (pending, [], false)
  | some packet =>
    if pending.waiting ctx then (pending, [], false)
    else
      let packet := packet.setConnectionNumber ctx.connectNumber
      ({ packet := some packet, timestamp := ctx.currentTime, isSent := true },
        [.sendUserData packet], true)

def clear (pending : PendingPacket) : PendingPacket × List PeerCall :=
  match pending.packet with
  | none => (pending, [])
  | some packet => ({ pending with packet := none }, [.recycleAndDeliver packet])

end PendingPacket

structure NetReliableChannel where
  base : NetBaseChannel
  ordered : Bool
  id : UInt8
  localSequence : ℕ
  remoteSequence : ℕ
  localWindowStart : ℕ
  remoteWindowStart : ℕ
  mustSendAcks : Bool
  outgoingAcks : NetPacket
  pendingPackets : Ring PendingPacket
  receivedPackets : Ring (Option NetPacket)
  earlyReceived : Ring Bool

namespace NetReliableChannel

def new (ordered : Bool) (id : UInt8) : NetReliableChannel where
  base := .new
  ordered := ordered
  id := id
  localSequence := 0
  remoteSequence := 0
  localWindowStart := 0
  remoteWindowStart := 0
  mustSendAcks := false
  outgoingAcks :=
    (NetPacket.new .ack ((windowSize - 1) / bitsInByte + 2) (by decide)).setChannelId id
  pendingPackets := fun _ => .new
  receivedPackets := fun _ => none
  earlyReceived := fun _ => false

def deliveryMethod (ch : NetReliableChannel) : DeliveryMethod :=
  if ch.ordered then .reliableOrdered else .reliableUnordered

/-- The loop "clean old data": forget the bits of the numbers the window leaves behind. -/
def cleanOldData : ℕ → NetPacket → ℕ → ℕ → NetPacket × ℕ
  | 0, acks, windowStart, _ => (acks, windowStart)
  | fuel + 1, acks, windowStart, newWindowStart =>
    if windowStart = newWindowStart then (acks, windowStart)
    else cleanOldData fuel (clearAckBit acks (windowStart % windowSize))
      ((windowStart + 1) % maxSequence) newWindowStart

/-- "New window position". -/
def moveWindow (ch : NetReliableChannel) (relate : ℕ) : NetReliableChannel :=
  let newWindowStart := (ch.remoteWindowStart + relate - windowSize + 1) % maxSequence
  let acks := ch.outgoingAcks.setSequence newWindowStart
  let cleaned := cleanOldData maxSequence acks ch.remoteWindowStart newWindowStart
  { ch with outgoingAcks := cleaned.1, remoteWindowStart := cleaned.2 }

/-- The two loops that follow a packet that came in order: while the slot of the next number
holds something, take it out and step to the number after it. -/
def drain {α β : Type} (held : α → Option β) (empty : α) : ℕ → Ring α → ℕ → Ring α × ℕ × List β
  | 0, ring, sequence => (ring, sequence, [])
  | fuel + 1, ring, sequence =>
    match held (ring (ringSlot sequence)) with
    | none => (ring, sequence, [])
    | some value =>
      let rest := drain held empty fuel (Function.update ring (ringSlot sequence) empty)
        ((sequence + 1) % maxSequence)
      (rest.1, rest.2.1, value :: rest.2.2)

/-- "Process holden packet": hand on the held packets that are next in order. -/
def drainReceived : Ring (Option NetPacket) → ℕ → Ring (Option NetPacket) × ℕ × List NetPacket :=
  drain (fun held => held) none windowSize

def earlyMark (early : Bool) : Option Unit := if early then some () else none

@[simp] theorem earlyMark_false : earlyMark false = none := rfl

@[simp] theorem earlyMark_true : earlyMark true = some () := rfl

/-- "Process early packet": step over the numbers that were delivered early. -/
def drainEarly : Ring Bool → ℕ → Ring Bool × ℕ × List Unit := drain earlyMark false windowSize

/-- "Detailed check": deliver an accepted packet, or hold it until it is in order. -/
def deliver (ch : NetReliableChannel) (packet : NetPacket) : NetReliableChannel × List PeerCall :=
  let seq := packet.sequence
  if seq = ch.remoteSequence then
    let next := (ch.remoteSequence + 1) % maxSequence
    if ch.ordered then
      let drained := drainReceived ch.receivedPackets next
      ({ ch with receivedPackets := drained.1, remoteSequence := drained.2.1 },
        (packet :: drained.2.2).map (.addReliablePacket ch.deliveryMethod))
    else
      let drained := drainEarly ch.earlyReceived next
      ({ ch with earlyReceived := drained.1, remoteSequence := drained.2.1 },
        [.addReliablePacket ch.deliveryMethod packet])
  else if ch.ordered then
    ({ ch with receivedPackets :=
        Function.update ch.receivedPackets (ringSlot seq) (some packet) }, [])
  else
    ({ ch with earlyReceived := Function.update ch.earlyReceived (ringSlot seq) true },
      [.addReliablePacket ch.deliveryMethod packet])

/-- The part of `process_packet` after the window checks: acknowledge, drop a duplicate, deliver. -/
def acceptPacket (ch : NetReliableChannel) (packet : NetPacket) :
    NetReliableChannel × List PeerCall × Bool :=
  let ch := { ch with mustSendAcks := true }
  let ackIdx := packet.sequence % windowSize
  let queued := ch.base.addToPeerChannelSendQueue
  if testAckBit ch.outgoingAcks ackIdx then
    ({ ch with base := queued.1 }, queued.2, false)
  else
    let ch := { ch with base := queued.1, outgoingAcks := setAckBit ch.outgoingAcks ackIdx }
    let delivered := ch.deliver packet
    (delivered.1, queued.2 ++ delivered.2, true)

/-- The body of the loop of `process_ack` for a number whose bit is set. -/
def releasePending (ch : NetReliableChannel) (pendingSeq : ℕ) :
    NetReliableChannel × List PeerCall :=
  let windowStart :=
    if pendingSeq = ch.localWindowStart then (ch.localWindowStart + 1) % maxSequence
    else ch.localWindowStart
  let cleared := (ch.pendingPackets (ringSlot pendingSeq)).clear
  ({ ch with
      localWindowStart := windowStart
      pendingPackets := Function.update ch.pendingPackets (ringSlot pendingSeq) cleared.1 },
    cleared.2)

/-- The loop over the pending numbers of `process_ack`. -/
def ackPending (packet : NetPacket) (ackWindowStart : ℕ) :
    ℕ → ℕ → NetReliableChannel → NetReliableChannel × List PeerCall
  | 0, _, ch => (ch, [])
  | fuel + 1, pendingSeq, ch =>
    if pendingSeq = ch.localSequence then (ch, [])
    else if (windowSize : ℤ) ≤ relativeSequenceNumber pendingSeq ackWindowStart then (ch, [])
    else if !testAckBit packet (pendingSeq % windowSize) then
      ackPending packet ackWindowStart fuel ((pendingSeq + 1) % maxSequence) ch
    else
      let released := ch.releasePending pendingSeq
      let rest := ackPending packet ackWindowStart fuel ((pendingSeq + 1) % maxSequence) released.1
      (rest.1, released.2 ++ rest.2)

def processAck (ch : NetReliableChannel) (packet : NetPacket) :
    NetReliableChannel × List PeerCall :=
  if packet.size ≠ ch.outgoingAcks.size then (ch, [])
  else
    let ackWindowStart := packet.sequence
    let windowRel := relativeSequenceNumber ch.localWindowStart ackWindowStart
    if maxSequence ≤ ackWindowStart ∨ windowRel < 0 then (ch, [])
    else if (windowSize : ℤ) ≤ windowRel then (ch, [])
    else ackPending packet ackWindowStart maxSequence ch.localWindowStart ch

def processPacket (ch : NetReliableChannel) (packet : NetPacket) :
    NetReliableChannel × List PeerCall × Bool :=
  if packet.property = .ack then
    let acked := ch.processAck packet
    (acked.1, acked.2, false)
  else
    let seq := packet.sequence
    if maxSequence ≤ seq then (ch, [], false)
    else
      let relate := relativeSequenceNumber seq ch.remoteWindowStart
      let relateSeq := relativeSequenceNumber seq ch.remoteSequence
      if (windowSize : ℤ) < relateSeq then (ch, [], false)
      else if relate < 0 then (ch, [], false)
      else if (windowSize : ℤ) * 2 ≤ relate then (ch, [], false)
      else if (windowSize : ℤ) ≤ relate then (ch.moveWindow relate.toNat).acceptPacket packet
      else ch.acceptPacket packet

/-- Give a queued packet the next number and put it into its slot. -/
def admitPacket (ch : NetReliableChannel) (packet : NetPacket) : NetReliableChannel :=
  let packet := (packet.setSequence ch.localSequence).setChannelId ch.id
  let slot := ringSlot ch.localSequence
  { ch with
    pendingPackets := Function.update ch.pendingPackets slot ((ch.pendingPackets slot).init packet)
    localSequence := (ch.localSequence + 1) % maxSequence }

/-- Move queued packets into the window while it has room. -/
def fillWindow : List NetPacket → NetReliableChannel → NetReliableChannel
  | [], ch => { ch with base := { ch.base with outgoingQueue := [] } }
  | packet :: queue, ch =>
    if (windowSize : ℤ) ≤ relativeSequenceNumber ch.localSequence ch.localWindowStart then
      { ch with base := { ch.base with outgoingQueue := packet :: queue } }
    else fillWindow queue (ch.admitPacket packet)

/-- The loop that sends or resends every pending packet of the window that is due. -/
def sendPending (ctx : ChannelContext) (localSequence : ℕ) :
    ℕ → ℕ → Ring PendingPacket → Ring PendingPacket × List PeerCall × Bool
  | 0, _, ring => (ring, [], false)
  | fuel + 1, pendingSeq, ring =>
    if pendingSeq = localSequence then (ring, [], false)
    else
      let sent := (ring (ringSlot pendingSeq)).trySend ctx
      let rest := sendPending ctx localSequence fuel ((pendingSeq + 1) % maxSequence)
        (Function.update ring (ringSlot pendingSeq) sent.1)
      (rest.1, sent.2.1 ++ rest.2.1, sent.2.2 || rest.2.2)

/-- Send the acknowledgements that are due. -/
def sendAcks (ch : NetReliableChannel) (ctx : ChannelContext) :
    NetReliableChannel × List PeerCall :=
  if ch.mustSendAcks then
    let acks := ch.outgoingAcks.setConnectionNumber ctx.connectNumber
    ({ ch with mustSendAcks := false, outgoingAcks := acks }, [.sendUserData acks])
  else (ch, [])

def sendNextPackets (ch : NetReliableChannel) (ctx : ChannelContext) :
    NetReliableChannel × List PeerCall × Bool :=
  let acked := ch.sendAcks ctx
  let ch := fillWindow acked.1.base.outgoingQueue acked.1
  let sent := sendPending ctx ch.localSequence maxSequence ch.localWindowStart ch.pendingPackets
  let ch := { ch with pendingPackets := sent.1 }
  (ch, acked.2 ++ sent.2.1, sent.2.2 || ch.mustSendAcks || !ch.base.outgoingQueue.isEmpty)

def addToQueue (ch : NetReliableChannel) (packet : NetPacket) :
    NetReliableChannel × List PeerCall :=
  let queued := ch.base.addToQueue packet
  ({ ch with base := queued.1 }, queued.2)

def sendAndCheckQueue (ch : NetReliableChannel) (ctx : ChannelContext) :
    NetReliableChannel × List PeerCall × Bool :=
  let sent := ch.sendNextPackets ctx
  ({ sent.1 with base := sent.1.base.checkQueue sent.2.2 }, sent.2.1, sent.2.2)

end NetReliableChannel

end LiteNet.Channels
