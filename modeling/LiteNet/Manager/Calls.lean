import LiteNet.Manager.Send

/-! # What a channel asks of its peer

User packets are gathered in the merge buffer while they fit the MTU, and received
fragments are held until a message is complete.
-/

namespace LiteNet.Manager
open Library Wire Channels

def sizeTreshold : ℕ := 20

namespace NetPeer

/-- Put a packet, after its size, behind the packets already gathered. -/
def mergePacket (p : NetPeer) (packet : NetPacket) : NetPeer :=
  let mergeData := p.mergeData.setValueAt packet.size (p.mergePos + headerSize) 2
  let mergeData := mergeData.copyFrom packet.data 0 (p.mergePos + headerSize + 2) packet.size
  { p with
    mergeData := mergeData
    mergePos := p.mergePos + packet.size + 2
    mergeCount := p.mergeCount + 1 }

/-- What `send_merged` sends: a packet that was gathered alone goes out without its size. -/
def mergedBytes (p : NetPeer) : Bytes :=
  if 1 < p.mergeCount then readBytes p.mergeData.data 0 (headerSize + p.mergePos)
  else readBytes p.mergeData.data (headerSize + 2) (p.mergePos - 2)

end NetPeer

namespace NetManager

def sendMerged (m : NetManager) (r : PeerRef) : NetManager :=
  let p := m.peerAt r
  if p.mergeCount = 0 then m
  else
    let m := (m.sendRaw p.mergedBytes p.endpoint).1
    m.setPeer r { m.peerAt r with mergePos := 0, mergeCount := 0 }

def sendUserData (m : NetManager) (r : PeerRef) (packet : NetPacket) : NetManager :=
  let p := m.peerAt r
  let packet := packet.setConnectionNumber p.connectNumber
  let mergedPacketSize := headerSize + packet.size + 2
  if p.mtu ≤ mergedPacketSize + sizeTreshold then (m.sendRaw packet.wire p.endpoint).1
  else
    let m := if p.mtu < p.mergePos + mergedPacketSize then m.sendMerged r else m
    m.setPeer r ((m.peerAt r).mergePacket packet)

def createReceiveEvent (m : NetManager) (packet : NetPacket) (method : DeliveryMethod)
    (channelNumber : UInt8) (headerSize : ℕ) (endpoint : NetAddress) : NetManager :=
  m.createEvent {
    type := .receive
    deliveryMethod := method
    channelNumber := channelNumber
    peer := m.tryGetPeer endpoint
    readerSource := some packet
    reader := some ⟨packet.data, packet.size, headerSize⟩ }

/-- The user data does not reach the event. -/
def messageDelivered (m : NetManager) (address : NetAddress) : NetManager :=
  match m.tryGetPeer address with
  | none => m
  | some r => m.createEvent { type := .messageDelivered, peer := some r }

/-- The branch of `recycle_and_deliver` for a fragment: the message counts as delivered with its
last fragment. -/
def fragmentDelivered (m : NetManager) (r : PeerRef) (packet : NetPacket) : NetManager :=
  let p := m.peerAt r
  match p.deliveredFragments packet.fragmentId with
  | none => m
  | some count =>
    let fragCount := (count + 1) % 65536
    if fragCount = packet.totalFragments then
      let m := m.messageDelivered p.endpoint
      m.setPeer r { m.peerAt r with
        deliveredFragments := Function.update p.deliveredFragments packet.fragmentId none }
    else
      m.setPeer r { p with
        deliveredFragments := Function.update p.deliveredFragments packet.fragmentId fragCount }

def recycleAndDeliver (m : NetManager) (r : PeerRef) (packet : NetPacket) : NetManager :=
  if packet.userData = 0 then m.poolRecycle packet
  else
    let m :=
      if packet.isFragmented then m.fragmentDelivered r packet
      else m.messageDelivered (m.peerAt r).endpoint
    m.poolRecycle { packet with userData := 0 }

/-- `clear_holded_fragments`. -/
def clearFragments (m : NetManager) (fragments : List (Option NetPacket)) : NetManager :=
  fragments.foldl poolRecycleOption m

/-- The loop that copies the fragments of a complete message behind each other. Without room it
gives up, and the fragments not yet copied are recycled. -/
def assemble : List (Option NetPacket) → ℕ → NetPacket → NetManager → NetManager × Option NetPacket
  | [], _, result, m => (m, some result)
  | none :: fragments, pos, result, m => assemble fragments pos result m
  | some fragment :: fragments, pos, result, m =>
    let writtenSize := fragment.size - fragmentedHeaderTotalSize
    if result.bufferSize < pos + writtenSize ∨ fragment.bufferSize < fragment.size then
      (m.clearFragments (some fragment :: fragments), none)
    else
      assemble fragments (pos + writtenSize)
        (result.write pos (readBytes fragment.data fragmentedHeaderTotalSize writtenSize))
        (m.poolRecycle fragment)

/-- Store what is held under a fragment id. -/
def holdFragments (m : NetManager) (r : PeerRef) (fragmentId : ℕ)
    (held : Option IncomingFragments) : NetManager :=
  let p := m.peerAt r
  m.setPeer r { p with holdedFragments := Function.update p.holdedFragments fragmentId held }

/-- Deliver a message all of whose fragments are there. -/
def deliverFragments (m : NetManager) (method : DeliveryMethod) (channelNumber : UInt8)
    (held : IncomingFragments) (endpoint : NetAddress) : NetManager :=
  let got := m.poolGetPacket held.totalSize
  let assembled := assemble held.fragments 0 got.1 got.2
  match assembled.2 with
  | none => assembled.1
  | some result => assembled.1.createReceiveEvent result method channelNumber 0 endpoint

def addReliablePacket (m : NetManager) (r : PeerRef) (method : DeliveryMethod)
    (packet : NetPacket) : NetManager :=
  let p := m.peerAt r
  let channelNumber := UInt8.ofNat (packet.channelId.toNat / channelTypeCount)
  if !packet.isFragmented then
    m.createReceiveEvent packet method channelNumber channeledHeaderSize p.endpoint
  else
    let packetFragId := packet.fragmentId
    let held := (p.holdedFragments packetFragId).getD
      ⟨List.replicate packet.totalFragments none, 0, 0, packet.channelId⟩
    if held.fragments.length ≤ packet.fragmentPart ∨
        (held.fragments.getD packet.fragmentPart none).isSome ∨
        packet.channelId ≠ held.channelId then
      (m.holdFragments r packetFragId (some held)).poolRecycle packet
    else
      let held : IncomingFragments := {
        fragments := held.fragments.set packet.fragmentPart (some packet)
        receivedCount := held.receivedCount + 1
        totalSize := held.totalSize + (packet.size - fragmentedHeaderTotalSize)
        channelId := held.channelId }
      if held.receivedCount ≠ held.fragments.length then m.holdFragments r packetFragId (some held)
      else
        (m.holdFragments r packetFragId none).deliverFragments method channelNumber held p.endpoint

/-- One call that the channel `idx` makes on its peer. -/
def applyCall (m : NetManager) (r : PeerRef) (idx : UInt8) : PeerCall → NetManager
  | .addToReliableChannelSendQueue =>
    m.setPeer r { m.peerAt r with channelSendQueue := (m.peerAt r).channelSendQueue ++ [idx] }
  | .addReliablePacket method packet => m.addReliablePacket r method packet
  | .createReceiveEvent packet method channelNumber headerSize =>
    m.createReceiveEvent packet method channelNumber headerSize (m.peerAt r).endpoint
  | .sendUserData packet => m.sendUserData r packet
  | .recycleAndDeliver packet => m.recycleAndDeliver r packet
  | .poolRecycle packet => m.poolRecycle packet

def applyCalls (m : NetManager) (r : PeerRef) (idx : UInt8) (calls : List PeerCall) : NetManager :=
  calls.foldl (fun m call => m.applyCall r idx call) m

end NetManager

end LiteNet.Manager
