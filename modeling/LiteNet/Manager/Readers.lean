import LiteNet.Channels.HeldPackets
import LiteNet.Manager.DispatchChanges
import LiteNet.Manager.SendFrame
import LiteNet.Wire.ReaderBounds

/-! # Readers stay inside their packets

Every reader that the application gets starts behind a header. A packet is verified
to have room for it when it is received, and a channel may hold the packet for a long
time before it is delivered. A connect request is only verified up to the length of
the address that follows its header, so its reader can start behind its end.
-/

namespace LiteNet.Manager
open Library Wire Channels Relation

namespace NetChannel

/-- What the channel holds has a channeled header. -/
def Sized : NetChannel → Prop
  | .reliable ch => ch.Sized
  | .sequenced _ => True

variable {ch : NetChannel} {packet : NetPacket}

theorem create_sized (idx : UInt8) : (create idx).Sized := by
  rw [create]
  split
  · exact NetReliableChannel.Sized.new false idx
  · trivial
  · exact NetReliableChannel.Sized.new true idx
  · trivial

theorem processPacket_sized (h : ch.Sized)
    (hp : packet.property = .ack ∨ channeledHeaderSize ≤ packet.size) :
    (ch.processPacket packet).1.Sized ∧ ∀ c ∈ (ch.processPacket packet).2.1, c.Sized := by
  cases ch with
  | reliable ch => exact NetReliableChannel.processPacket_sized h hp
  | sequenced ch => exact ⟨trivial, NetSequencedChannel.processPacket_sized hp⟩

theorem addToQueue_sized (h : ch.Sized) (packet : NetPacket) :
    (ch.addToQueue packet).1.Sized ∧ ∀ c ∈ (ch.addToQueue packet).2, c.Sized := by
  cases ch with
  | reliable ch => exact ⟨h, Channels.addToQueue_sized _ _⟩
  | sequenced ch => exact ⟨trivial, Channels.addToQueue_sized _ _⟩

theorem sendAndCheckQueue_sized (h : ch.Sized) (ctx : ChannelContext) :
    (ch.sendAndCheckQueue ctx).1.Sized ∧ ∀ c ∈ (ch.sendAndCheckQueue ctx).2.1, c.Sized := by
  cases ch with
  | reliable ch => exact NetReliableChannel.sendAndCheckQueue_sized h ctx
  | sequenced ch => exact ⟨trivial, NetSequencedChannel.sendAndCheckQueue_sized ch ctx⟩

end NetChannel

namespace NetPeer

def Sized (p : NetPeer) : Prop := ∀ idx ch, p.channels idx = some ch → ch.Sized

variable {p : NetPeer}

theorem Sized.new (channelsCount : ℕ) (endpoint : NetAddress) (id : ℕ) :
    (new channelsCount endpoint id).Sized := nofun

theorem Sized.of_channels {p' : NetPeer} (h : p.Sized) (channels : p'.channels = p.channels) :
    p'.Sized := by
  rw [Sized, channels]
  exact h

theorem Sized.setChannel (h : p.Sized) (idx : UInt8) {ch : NetChannel} (hch : ch.Sized) :
    { p with channels := Function.update p.channels idx (some ch) }.Sized := by
  intro i c hi
  change Function.update p.channels idx (some ch) i = some c at hi
  by_cases he : i = idx
  · rw [he, Function.update_self] at hi
    cases hi
    exact hch
  · rw [Function.update_of_ne he] at hi
    exact h i c hi

theorem Sized.createChannel (h : p.Sized) (idx : UInt8) : (p.createChannel idx).Sized := by
  rw [NetPeer.createChannel]
  split
  · exact h
  · exact h.setChannel idx (NetChannel.create_sized idx)

theorem processConnectAccept_channels {p' : NetPeer} {accept : NetConnectAcceptPacket}
    (h : p.processConnectAccept accept = some p') : p'.channels = p.channels := by
  rw [processConnectAccept] at h
  split at h
  · cases h
  · split at h
    · cases h
    · cases h
      rfl

end NetPeer

/-- The reader of a connect request starts behind the address, wherever the packet ends. -/
structure OfRequest (reader : NetDataReader) : Prop where
  position_ge : connectRequestHeaderSize + NetAddress.rawSize ≤ reader.position
  size_le : reader.size ≤ maxPacketSize
  data : reader.size ≤ reader.data.length
  inside : connectRequestHeaderSize + NetAddress.rawSize ≤ reader.size →
    reader.position ≤ reader.size

/-- It is inside exactly if the packet has room for the address. -/
theorem OfRequest.inside_iff {reader : NetDataReader} (h : OfRequest reader) :
    reader.Inside ↔ connectRequestHeaderSize + NetAddress.rawSize ≤ reader.size :=
  ⟨fun hi => h.position_ge.trans hi.position_le, fun hs => ⟨h.inside hs, h.data⟩⟩

theorem OfRequest.fromData {packet : NetPacket} (hs : packet.size ≤ maxPacketSize)
    {request : NetConnectRequestPacket}
    (h : NetConnectRequestPacket.fromData packet = some request) : OfRequest request.data := by
  rw [NetConnectRequestPacket.fromData] at h
  split at h
  · cases h
  · split at h
    · cases h
    · cases h
      exact ⟨le_rfl, hs, packet.size_le, id⟩

theorem OfRequest.tryReadString {reader : NetDataReader} (h : OfRequest reader) :
    OfRequest reader.tryReadString.2 := by
  obtain ⟨hdata, hsize, hposition⟩ := reader.tryReadString_moves
  refine ⟨h.position_ge.trans hposition, hsize ▸ h.size_le, ?_, fun hs => ?_⟩
  · rw [hsize, hdata]
    exact h.data
  · rw [hsize] at hs
    have hlt : reader.size < 2 ^ 64 := h.size_le.trans_lt (by decide)
    exact ((h.inside_iff.mpr hs).tryReadString hlt).2.2.position_le

namespace NetManager

/-- The readers of events are inside their packets, those of requests start where they must, and
what the channels hold is fit to be delivered. -/
structure Readable (n : ℕ) (m : NetManager) : Prop where
  count : n ≤ m.peerCount
  held : ∀ r < m.peerCount, (m.peerAt r).Sized
  events : ∀ e ∈ m.events, ∀ reader, e.reader = some reader → reader.Inside
  requests : ∀ q < m.requestCount, OfRequest (m.requestAt q).internalPacket.data

namespace Readable

variable {n : ℕ} {m m' : NetManager} {r : PeerRef}

theorem aside (hm : Readable n m) (h : Aside m m') : Readable n m' := by
  have hrequests : m'.requestAt = m.requestAt := congrArg Bookkeeping.requestAt h.bookkeeping
  have hcount : m'.requestCount = m.requestCount := congrArg Bookkeeping.requestCount h.bookkeeping
  constructor
  · rw [h.peerCount]
    exact hm.count
  · rw [h.peerCount, h.peerAt]
    exact hm.held
  · rw [h.events]
    exact hm.events
  · rw [hcount, hrequests]
    exact hm.requests

theorem setPeer (hm : Readable n m) {p : NetPeer} (hp : r < m.peerCount → p.Sized) :
    Readable n (m.setPeer r p) := by
  refine ⟨hm.count, fun q hq => ?_, hm.events, hm.requests⟩
  by_cases he : q = r
  · subst he
    rw [setPeer_self]
    exact hp hq
  · rw [setPeer_of_ne _ he]
    exact hm.held q hq

theorem touch (hm : Readable n m) {p : NetPeer} (channels : p.channels = (m.peerAt r).channels) :
    Readable n (m.setPeer r p) :=
  hm.setPeer (fun hr => (hm.held r hr).of_channels channels)

theorem pushEvent (hm : Readable n m) {e : NetEvent}
    (he : ∀ reader, e.reader = some reader → reader.Inside) : Readable n (m.pushEvent e) := by
  refine ⟨hm.count, hm.held, fun e' he' => ?_, hm.requests⟩
  rcases List.mem_append.mp he' with he' | he'
  · exact hm.events e' he'
  · rw [List.mem_singleton.mp he']
    exact he

theorem createEvent (hm : Readable n m) {args : NetEvent} (reader : args.reader = none)
    (source : args.readerSource = none) : Readable n (m.createEvent args) := by
  refine hm.pushEvent (fun reader' hr => ?_)
  rw [reader, source] at hr
  change args.reader = some reader' at hr
  rw [reader] at hr
  cases hr

/-- The reader of an event with a packet starts behind the packet's header. -/
theorem createEvent_source (hm : Readable n m) {args : NetEvent} (reader : args.reader = none)
    (source : ∀ packet, args.readerSource = some packet → packet.getHeaderSize ≤ packet.size) :
    Readable n (m.createEvent args) := by
  cases hs : args.readerSource with
  | none => exact hm.createEvent reader hs
  | some packet =>
    refine hm.pushEvent (fun reader' hr => ?_)
    rw [reader, hs] at hr
    cases hr
    exact ⟨source packet hs, packet.size_le⟩

theorem createReceiveEvent (hm : Readable n m) {packet : NetPacket} (method : DeliveryMethod)
    (channelNumber : UInt8) {headerSize : ℕ} (endpoint : NetAddress)
    (hs : headerSize ≤ packet.size) :
    Readable n (m.createReceiveEvent packet method channelNumber headerSize endpoint) := by
  refine hm.pushEvent (fun reader hr => ?_)
  cases hr
  exact ⟨hs, packet.size_le⟩

theorem noEventData (packet : NetPacket) (h : (none : Option NetPacket) = some packet) :
    packet.getHeaderSize ≤ packet.size := by
  cases h

theorem noteShutdown (hm : Readable n m) (shutdownResult : ShutdownResult)
    (reason : DisconnectReason) (socketErrorCode : ℕ) {eventData : Option NetPacket}
    (hd : ∀ packet, eventData = some packet → packet.getHeaderSize ≤ packet.size) :
    Readable n (m.noteShutdown r shutdownResult reason socketErrorCode eventData) := by
  rw [NetManager.noteShutdown]
  split
  · exact hm.aside (m.poolRecycleOption_aside eventData)
  · exact hm.createEvent_source rfl hd

theorem disconnectPeerForce (hm : Readable n m) (address : NetAddress) (reason : DisconnectReason)
    (socketErrorCode : ℕ) {eventData : Option NetPacket}
    (hd : ∀ packet, eventData = some packet → packet.getHeaderSize ≤ packet.size) :
    Readable n (m.disconnectPeerForce address reason socketErrorCode eventData) := by
  rw [NetManager.disconnectPeerForce]
  split
  · exact hm
  · next r hr =>
    obtain ⟨s, hs⟩ := shutdownForce_sameButState (m.peerAt r)
    dsimp only
    rw [hs]
    refine noteShutdown ?_ _ _ _ hd
    exact hm.touch rfl

theorem sendRaw (hm : Readable n m) (bytes : Bytes) (endpoint : NetAddress) :
    Readable n (m.sendRaw bytes endpoint).1 := by
  have hlogged : ∀ results, Readable n
      { m.logSent ⟨endpoint, bytes⟩ with sendResults := results } := fun _ =>
    ⟨hm.count, hm.held, hm.events, hm.requests⟩
  obtain ⟨results, hsent | ⟨reason, code, hsent⟩⟩ := m.sendRaw_cases bytes endpoint
  · rw [hsent]
    exact hlogged results
  · rw [hsent, unreachable]
    split
    · exact ((hlogged results).disconnectPeerForce _ _ _ noEventData).createEvent rfl rfl
    · exact (hlogged results).createEvent rfl rfl

theorem sendRawAndRecycle (hm : Readable n m) (packet : NetPacket) (endpoint : NetAddress) :
    Readable n (m.sendRawAndRecycle packet endpoint).1 :=
  (hm.sendRaw packet.wire endpoint).aside (poolRecycle_aside _ packet)

theorem shutdown (hm : Readable n m) (rejectData : Option Bytes) (offset size : ℕ) (force : Bool) :
    Readable n (m.shutdown r rejectData offset size force).1 := by
  rw [NetManager.shutdown]
  dsimp only
  split
  · obtain ⟨s, hs⟩ := shutdownForce_sameButState (m.peerAt r)
    rw [hs]
    exact hm.touch rfl
  · refine sendRaw ?_ _ _
    exact hm.touch rfl

theorem disconnectPeer (hm : Readable n m) (address : NetAddress) (reason : DisconnectReason)
    (socketErrorCode : ℕ) (force : Bool) (rejectData : Option Bytes) (offset size : ℕ) :
    Readable n
      (m.disconnectPeer address reason socketErrorCode force rejectData offset size none) := by
  rw [NetManager.disconnectPeer]
  split
  · exact hm
  · exact (hm.shutdown _ _ _ _).noteShutdown _ _ _ noEventData

theorem disconnectAll (hm : Readable n m) (data : Option Bytes) (offset size : ℕ) :
    Readable n (m.disconnectAll data offset size) := by
  rw [NetManager.disconnectAll]
  generalize m.peerAddresses m.peerCount m.headPeer = addresses
  induction addresses generalizing m with
  | nil => exact hm
  | cons addr addresses ih => exact ih (hm.disconnectPeer addr _ _ _ _ _ _)

theorem sendMerged (hm : Readable n m) : Readable n (m.sendMerged r) := by
  rw [NetManager.sendMerged]
  dsimp only
  split
  · exact hm
  · exact (hm.sendRaw _ _).touch rfl

theorem sendUserData (hm : Readable n m) (packet : NetPacket) :
    Readable n (m.sendUserData r packet) := by
  rw [NetManager.sendUserData]
  dsimp only
  split
  · exact hm.sendRaw _ _
  · split
    · exact hm.sendMerged.touch rfl
    · exact hm.touch rfl

theorem messageDelivered (hm : Readable n m) (address : NetAddress) :
    Readable n (m.messageDelivered address) := by
  rw [NetManager.messageDelivered]
  split
  · exact hm
  · exact hm.createEvent rfl rfl

theorem recycleAndDeliver (hm : Readable n m) (packet : NetPacket) :
    Readable n (m.recycleAndDeliver r packet) := by
  have hfragment : Readable n (m.fragmentDelivered r packet) := by
    rw [fragmentDelivered]
    split
    · exact hm
    · dsimp only
      split
      · exact (hm.messageDelivered _).touch rfl
      · exact hm.touch rfl
  rw [NetManager.recycleAndDeliver]
  split
  · exact hm.aside (m.poolRecycle_aside packet)
  · refine Readable.aside ?_ (poolRecycle_aside _ _)
    split
    · exact hfragment
    · exact hm.messageDelivered _

/-- A message that was put together has no header left. -/
theorem deliverFragments (hm : Readable n m) (method : DeliveryMethod) (channelNumber : UInt8)
    (held : IncomingFragments) (endpoint : NetAddress) :
    Readable n (m.deliverFragments method channelNumber held endpoint) := by
  have hassembled := (hm.aside (m.poolGetPacket_aside held.totalSize)).aside
    (assemble_aside held.fragments 0 (m.poolGetPacket held.totalSize).1 _)
  rw [NetManager.deliverFragments]
  split
  · exact hassembled
  · exact hassembled.createReceiveEvent _ _ _ (Nat.zero_le _)

theorem addReliablePacket (hm : Readable n m) (method : DeliveryMethod) {packet : NetPacket}
    (hs : channeledHeaderSize ≤ packet.size) :
    Readable n (m.addReliablePacket r method packet) := by
  have hhold : ∀ held, Readable n (m.holdFragments r packet.fragmentId held) := fun held =>
    hm.touch rfl
  rw [NetManager.addReliablePacket]
  dsimp only
  split
  · exact hm.createReceiveEvent _ _ _ hs
  · split
    · exact (hhold _).aside (poolRecycle_aside _ packet)
    · split
      · exact hhold _
      · exact (hhold _).deliverFragments _ _ _ _

theorem applyCall (hm : Readable n m) (idx : UInt8) {call : PeerCall} (hc : call.Sized) :
    Readable n (m.applyCall r idx call) := by
  cases call with
  | addToReliableChannelSendQueue => exact hm.touch rfl
  | addReliablePacket method packet => exact hm.addReliablePacket method hc
  | createReceiveEvent packet method channelNumber headerSize =>
    exact hm.createReceiveEvent method channelNumber _ hc
  | sendUserData packet => exact hm.sendUserData packet
  | recycleAndDeliver packet => exact hm.recycleAndDeliver packet
  | poolRecycle packet => exact hm.aside (m.poolRecycle_aside packet)

theorem applyCalls (hm : Readable n m) (idx : UInt8) {calls : List PeerCall}
    (hc : ∀ c ∈ calls, c.Sized) : Readable n (m.applyCalls r idx calls) := by
  rw [NetManager.applyCalls]
  induction calls generalizing m with
  | nil => exact hm
  | cons call calls ih =>
    obtain ⟨hcall, hcalls⟩ := List.forall_mem_cons.mp hc
    exact ih (hm.applyCall idx hcall) hcalls

theorem processPing (hm : Readable n m) (packet : NetPacket) :
    Readable n (m.processPing r packet) := by
  rw [NetManager.processPing]
  dsimp only
  split
  · refine Readable.aside (sendRaw ?_ _ _) (poolRecycle_aside _ packet)
    exact (hm.aside m.getCurrentTime_aside).touch rfl
  · exact hm.aside (m.poolRecycle_aside packet)

theorem connectionLatencyUpdated (hm : Readable n m) (address : NetAddress) (latency : ℤ) :
    Readable n (m.connectionLatencyUpdated address latency) := by
  rw [NetManager.connectionLatencyUpdated]
  split
  · exact hm
  · exact hm.createEvent rfl rfl

theorem processPong (hm : Readable n m) (packet : NetPacket) :
    Readable n (m.processPong r packet) := by
  rw [NetManager.processPong]
  dsimp only
  split
  · refine Readable.aside (connectionLatencyUpdated ?_ _ _) (poolRecycle_aside _ packet)
    exact ((hm.aside m.highResolutionNow_aside).aside (getCurrentTime_aside _)).touch rfl
  · exact hm.aside (m.poolRecycle_aside packet)

theorem processChanneled (hm : Readable n m) (hr : r < n) {packet : NetPacket}
    (hs : packet.property = .ack ∨ channeledHeaderSize ≤ packet.size) :
    Readable n (m.processChanneled r packet) := by
  rw [NetManager.processChanneled]
  dsimp only
  generalize hp : (if packet.property = .ack then m.peerAt r
    else (m.peerAt r).createChannel packet.channelId) = p
  have hsized : p.Sized := by
    have hheld := hm.held r (hr.trans_le hm.count)
    rw [← hp]
    split
    · exact hheld
    · exact hheld.createChannel _
  split
  · exact hm.aside (m.poolRecycle_aside packet)
  · split
    · exact hm.aside (m.poolRecycle_aside packet)
    · next channel hchannel =>
      obtain ⟨hchannel', hcalls⟩ := NetChannel.processPacket_sized (hsized _ _ hchannel) hs
      have hset := hm.setPeer (r := r) (fun _ => hsized.setChannel packet.channelId hchannel')
      have hm' := hset.applyCalls (r := r) packet.channelId hcalls
      split
      · exact hm'
      · exact hm'.aside (poolRecycle_aside _ packet)

theorem processMtuPacket (hm : Readable n m) (packet : NetPacket) :
    Readable n (m.processMtuPacket r packet) := by
  rw [NetManager.processMtuPacket]
  dsimp only
  split_ifs
  · exact hm.aside (m.poolRecycle_aside packet)
  · exact hm.aside (m.poolRecycle_aside packet)
  · refine sendRawAndRecycle ?_ _ _
    exact hm.touch rfl
  · exact hm.aside (m.poolRecycle_aside packet)
  · exact hm.aside (m.poolRecycle_aside packet)
  · refine Readable.aside ?_ (poolRecycle_aside _ packet)
    exact hm.touch rfl
  · refine Readable.aside ?_ (poolRecycle_aside _ packet)
    exact hm.touch rfl

/-- What is taken out of a merged packet is verified before it is processed. -/
theorem processMerged {process : NetManager → NetPacket → NetManager}
    (hprocess : ∀ m packet, Readable n m → packet.verify = true → Readable n (process m packet))
    (packet : NetPacket) (fuel pos : ℕ) (hm : Readable n m) :
    Readable n (processMerged process packet fuel pos m) := by
  induction fuel generalizing m pos with
  | zero => exact hm
  | succ fuel ih =>
    rw [NetManager.processMerged]
    dsimp only
    have hget := hm.aside (m.poolGetPacket_aside (packet.getValueAt pos 2))
    split
    · exact hm
    · split
      · exact hm
      · split
        · exact hget
        · next hverify =>
          rw [Bool.not_eq_true, Bool.not_eq_false'] at hverify
          exact ih _ (hprocess _ _ hget hverify)

theorem processPacketWith {process : NetManager → NetPacket → NetManager}
    (hprocess : ∀ m packet, Readable n m → packet.verify = true → Readable n (process m packet))
    (hm : Readable n m) (hr : r < n) {packet : NetPacket} (hv : packet.verify = true) :
    Readable n (m.processPacketWith process r packet) := by
  have hheader := packet.getHeaderSize_le hv
  have hreset : Readable n (m.setPeer r { m.peerAt r with timeSinceLastPacket := 0 }) :=
    hm.touch rfl
  rw [NetManager.processPacketWith]
  dsimp only
  generalize m.setPeer r { m.peerAt r with timeSinceLastPacket := 0 } = x at hreset ⊢
  split
  · exact hm.aside (m.poolRecycle_aside packet)
  · split
    · refine Readable.aside ?_ (poolRecycle_aside _ packet)
      split
      · exact hm.touch rfl
      · exact hm.touch rfl
    · split
      · exact hm.aside (m.poolRecycle_aside packet)
      · split
        · exact (hreset.processMerged hprocess _ _ _).aside (poolRecycle_aside _ packet)
        · exact hreset.processPing packet
        · exact hreset.processPong packet
        · next hp => exact hreset.processChanneled hr (.inl hp)
        · next hp =>
          rw [NetPacket.getHeaderSize_of_property hp (by decide)] at hheader
          exact hreset.processChanneled hr (.inr hheader)
        · next hp =>
          rw [NetPacket.getHeaderSize_of_property hp (by decide)] at hheader
          exact hreset.createReceiveEvent _ _ _ hheader
        · exact hreset.processMtuPacket packet
        · exact hreset.processMtuPacket packet
        · exact hreset

theorem processPacket (hm : Readable n m) (hr : r < n) {packet : NetPacket}
    (hv : packet.verify = true) : Readable n (m.processPacket r packet) := by
  have hdepth (depth : ℕ) : ∀ m packet, Readable n m → packet.verify = true →
      Readable n (processPacketTo r depth m packet) := by
    induction depth with
    | zero => exact fun _ _ hm _ => hm
    | succ depth ih => exact fun _ _ hm hv => processPacketWith ih hm hr hv
  exact hdepth _ m packet hm hv

theorem sendMtuCheck (hm : Readable n m) (newMtu : ℕ) (endpoint : NetAddress) :
    Readable n (m.sendMtuCheck newMtu endpoint).1 :=
  (hm.aside (m.poolGetPacket_aside newMtu)).sendRawAndRecycle _ endpoint

theorem updateMtuLogic (hm : Readable n m) (deltaTime : ℤ) :
    Readable n (m.updateMtuLogic r deltaTime) := by
  rw [NetManager.updateMtuLogic]
  dsimp only
  split_ifs
  · exact hm
  · exact hm.touch rfl
  · exact hm.touch rfl
  · exact hm.touch rfl
  · refine touch ?_ rfl
    refine sendMtuCheck ?_ _ _
    exact hm.touch rfl
  · refine sendMtuCheck ?_ _ _
    exact hm.touch rfl

theorem updatePing (hm : Readable n m) (deltaTime : ℤ) : Readable n (m.updatePing r deltaTime) := by
  rw [NetManager.updatePing]
  dsimp only
  split
  · refine sendRaw ?_ _ _
    refine (hm.aside m.highResolutionNow_aside).touch ?_
    split <;> rfl
  · exact hm.touch rfl

theorem updateRtt (hm : Readable n m) (deltaTime : ℤ) : Readable n (m.updateRtt r deltaTime) := by
  rw [NetManager.updateRtt]
  dsimp only
  split
  · exact hm.touch rfl
  · exact hm.touch rfl

theorem updateChannels (hm : Readable n m) (hr : r < n) (count : ℕ) :
    Readable n (updateChannels r count m) := by
  induction count generalizing m with
  | zero => exact hm
  | succ count ih =>
    have hheld := hm.held r (hr.trans_le hm.count)
    rw [NetManager.updateChannels]
    dsimp only
    split
    · exact hm
    · next idx queue hqueue =>
      split
      · exact hm.touch rfl
      · next channel hchannel =>
        obtain ⟨hchannel', hcalls⟩ := NetChannel.sendAndCheckQueue_sized (hheld _ _ hchannel)
          ⟨(m.peerAt r).connectNumber, (m.peerAt r).resendDelay, m.getCurrentTime.1.toInt⟩
        have hset := (hm.aside m.getCurrentTime_aside).setPeer (r := r) (p := { m.peerAt r with
          channelSendQueue := queue
          channels := Function.update (m.peerAt r).channels idx
            (some (channel.sendAndCheckQueue ⟨(m.peerAt r).connectNumber, (m.peerAt r).resendDelay,
              m.getCurrentTime.1.toInt⟩).1) }) (fun _ => hheld.setChannel idx hchannel')
        have hsent := hset.applyCalls (r := r) idx hcalls
        apply ih
        split
        · exact hsent.touch rfl
        · exact hsent

theorem updateUnreliable (hm : Readable n m) : Readable n (m.updateUnreliable r) := by
  rw [NetManager.updateUnreliable]
  have hemptied : Readable n (m.setPeer r { m.peerAt r with unreliableChannel := [] }) :=
    hm.touch rfl
  generalize m.setPeer r { m.peerAt r with unreliableChannel := [] } = emptied at hemptied ⊢
  induction (m.peerAt r).unreliableChannel generalizing emptied with
  | nil => exact hemptied
  | cons packet packets ih =>
    exact ih _ ((hemptied.sendUserData packet).aside (poolRecycle_aside _ packet))

theorem update (hm : Readable n m) (hr : r < n) (deltaTime : ℤ) :
    Readable n (m.update r deltaTime) := by
  have hforce (m : NetManager) (hm : Readable n m) (address : NetAddress) reason :
      Readable n (m.disconnectPeerForce address reason 0 none) :=
    hm.disconnectPeerForce address reason 0 noEventData
  rw [NetManager.update]
  dsimp only
  have hpassed : Readable n (m.setPeer r { m.peerAt r with
      timeSinceLastPacket := wrapInt32 ((m.peerAt r).timeSinceLastPacket + deltaTime) }) := hm.touch rfl
  generalize m.setPeer r { m.peerAt r with
    timeSinceLastPacket := wrapInt32 ((m.peerAt r).timeSinceLastPacket + deltaTime) } = x at hpassed ⊢
  split
  · split
    · exact hforce x hpassed _ _
    · rw [updateConnected]
      exact ((((hpassed.updatePing deltaTime).updateRtt deltaTime).updateMtuLogic
        deltaTime).updateChannels hr _).updateUnreliable.sendMerged
  · rw [updateShutdown]
    dsimp only
    split
    · exact hpassed.touch rfl
    · split
      · refine sendRaw ?_ _ _
        exact hpassed.touch rfl
      · exact hpassed.touch rfl
  · rw [updateOutgoing]
    dsimp only
    split
    · split
      · refine hforce _ ?_ _ _
        exact hpassed.touch rfl
      · split
        · exact hpassed.touch rfl
        · refine sendRaw ?_ _ _
          exact hpassed.touch rfl
    · exact hpassed.touch rfl
  · exact hpassed

theorem addToQueue (hm : Readable n m) (hr : r < n) (idx : UInt8) (packet : NetPacket) :
    Readable n (m.addToQueue r idx packet) := by
  have hheld := hm.held r (hr.trans_le hm.count)
  rw [NetManager.addToQueue]
  dsimp only
  split
  · exact hm
  · next channel hchannel =>
    obtain ⟨hchannel', hcalls⟩ := NetChannel.addToQueue_sized (hheld _ _ hchannel) packet
    have hset := hm.setPeer (r := r) (fun _ => hheld.setChannel idx hchannel')
    exact hset.applyCalls idx hcalls

theorem sendFragments (hm : Readable n m) (hr : r < n) (idx : UInt8) (data : Bytes)
    (offset userData currentFragmentId packetDataSize totalPackets fuel partIdx size : ℕ) :
    Readable n (sendFragments r idx data offset userData currentFragmentId packetDataSize
      totalPackets fuel partIdx size m) := by
  induction fuel generalizing m partIdx size with
  | zero => exact hm
  | succ fuel ih => exact ih ((hm.aside (m.poolGetPacket_aside _)).addToQueue hr idx _) _ _

theorem sendInternal (hm : Readable n m) (hr : r < n) (data : Bytes) (offset size : ℕ)
    (channelNumber : UInt8) (deliveryMethod : DeliveryMethod) (userData : ℕ) :
    Readable n (m.sendInternal r data offset size channelNumber deliveryMethod userData) := by
  have hheld := hm.held r (hr.trans_le hm.count)
  rw [NetManager.sendInternal]
  dsimp only
  generalize hp : (if deliveryMethod = .unreliable then m.peerAt r else _) = p
  have hsized : p.Sized := by
    rw [← hp]
    split
    · exact hheld
    · exact hheld.createChannel _
  have hchannel : Readable n (m.setPeer r p) := hm.setPeer (fun _ => hsized)
  generalize m.setPeer r p = x at hchannel ⊢
  generalize (if deliveryMethod = .unreliable then PacketProperty.unreliable
    else .channeled) = property
  generalize (size / (p.mtu - property.getHeaderSize - fragmentHeaderSize) +
    if size % (p.mtu - property.getHeaderSize - fragmentHeaderSize) = 0 then 0 else 1) =
      totalPackets
  split
  · exact hm
  · split
    · split
      · exact hchannel.createEvent rfl rfl
      · split
        · exact hchannel.createEvent rfl rfl
        · refine sendFragments ?_ hr _ _ _ _ _ _ _ _ _ _
          exact hchannel.setPeer (fun _ => hsized)
    · have hget := hchannel.aside (x.poolGetPacket_aside (property.getHeaderSize + size))
      split
      · exact hget.setPeer (fun _ => hsized)
      · exact hget.addToQueue hr _ _

theorem getNextPeerId (hm : Readable n m) : Readable n m.getNextPeerId.2 := by
  rw [NetManager.getNextPeerId]
  split <;> exact ⟨hm.count, hm.held, hm.events, hm.requests⟩

theorem newPeer (hm : Readable n m) {p : NetPeer} (hp : p.Sized) : Readable n (m.newPeer p) := by
  refine ⟨le_add_right hm.count, fun q hq => ?_, hm.events, hm.requests⟩
  change (Function.update m.peerAt m.peerCount p q).Sized
  rcases Nat.lt_succ_iff_lt_or_eq.mp hq with hq | rfl
  · rw [Function.update_of_ne hq.ne]
    exact hm.held q hq
  · rw [Function.update_self]
    exact hp

theorem addPeer (hm : Readable n m) : Readable n (m.addPeer r) := by
  rw [addPeer_eq]
  exact ⟨hm.count, hm.held, hm.events, hm.requests⟩

theorem removePeerInternal (hm : Readable n m) (address : NetAddress) :
    Readable n (m.removePeerInternal address) := by
  rw [NetManager.removePeerInternal]
  split
  · exact hm
  · exact ⟨hm.count, hm.held, hm.events, hm.requests⟩

theorem newOutgoing (hm : Readable n m) (address : NetAddress) (connectNum : UInt8)
    (connectData : Bytes) : Readable n (m.newOutgoing address connectNum connectData) := by
  rw [NetManager.newOutgoing]
  refine sendRaw ?_ _ _
  refine (hm.getNextPeerId.aside (getCurrentTime_aside _)).newPeer ?_
  exact NetPeer.Sized.new m.channelsCount address m.getNextPeerId.1

theorem connect (hm : Readable n m) (address : NetAddress) (connectData : Bytes)
    (uninitialized : UInt8) : Readable n (m.connect address connectData uninitialized).1 := by
  rw [NetManager.connect]
  split
  · exact hm
  · split
    · exact hm
    · split
      · exact (hm.newOutgoing _ _ _).addPeer
      · dsimp only
        split
        · exact hm
        · exact ((hm.removePeerInternal address).newOutgoing _ _ _).addPeer

/-- A request may come to a new place or replace one that is there. -/
theorem withRequests (hm : Readable n m) {requestCount : ℕ}
    {requestAt : RequestRef → NetConnectionRequest}
    (h : ∀ q < requestCount, OfRequest (requestAt q).internalPacket.data)
    (connectionRequests : NetAddress.Key → Option RequestRef) :
    Readable n { m with
      requestCount := requestCount
      requestAt := requestAt
      connectionRequests := connectionRequests } :=
  ⟨hm.count, hm.held, hm.events, h⟩

theorem setRequest (hm : Readable n m) {q : RequestRef} {request : NetConnectionRequest}
    (h : q < m.requestCount → OfRequest request.internalPacket.data) :
    Readable n { m with requestAt := Function.update m.requestAt q request } := by
  refine hm.withRequests (fun q' hq' => ?_) m.connectionRequests
  by_cases he : q' = q
  · rw [he, Function.update_self]
    exact h (he ▸ hq')
  · rw [Function.update_of_ne he]
    exact hm.requests q' hq'

theorem queueRequest (hm : Readable n m) (addr : NetAddress) {request : NetConnectRequestPacket}
    (h : OfRequest request.data) : Readable n (m.queueRequest addr request) := by
  rw [NetManager.queueRequest]
  split
  · next q hq =>
    refine hm.setRequest (fun hlt => ?_)
    rw [NetConnectionRequest.updateRequest]
    split
    · exact hm.requests q hlt
    · split
      · exact hm.requests q hlt
      · exact h
  · refine createEvent (hm.withRequests (fun q hq => ?_) _) rfl rfl
    rcases Nat.lt_succ_iff_lt_or_eq.mp hq with hq | rfl
    · rw [Function.update_of_ne hq.ne]
      exact hm.requests q hq
    · rw [Function.update_self]
      exact h

theorem peerProcessConnectRequest (hm : Readable n m) (request : NetConnectRequestPacket) :
    Readable n (m.peerProcessConnectRequest r request).1 := by
  rw [NetManager.peerProcessConnectRequest]
  split
  · split_ifs <;> exact hm
  · split
    · split
      · exact hm
      · exact hm.sendRaw _ _
    · split_ifs <;> exact hm
  · split_ifs <;> exact hm
  · split_ifs <;> exact hm

theorem processConnectRequest (hm : Readable n m) (addr : NetAddress) (peer : Option PeerRef)
    {request : NetConnectRequestPacket} (h : OfRequest request.data) :
    Readable n (m.processConnectRequest addr peer request) := by
  cases peer with
  | none => exact hm.queueRequest addr h
  | some r =>
    have hprocessed : Readable n (m.peerProcessConnectRequest r request).1 :=
      hm.peerProcessConnectRequest request
    have hforce (reason : DisconnectReason) : Readable n
        ((m.peerProcessConnectRequest r request).1.disconnectPeerForce addr reason 0 none) :=
      hprocessed.disconnectPeerForce addr reason 0 noEventData
    rw [NetManager.processConnectRequest]
    split
    · exact ((hforce _).removePeerInternal addr).queueRequest addr h
    · exact (hprocessed.removePeerInternal addr).queueRequest addr h
    · exact ((hforce _).removePeerInternal addr).queueRequest addr h
    · exact hprocessed.aside (poolRecycle_aside _ _)

theorem newAccepted (hm : Readable n m) (request : NetConnectionRequest) :
    Readable n (m.newAccepted request) := by
  rw [NetManager.newAccepted]
  refine sendRaw ?_ _ _
  refine hm.getNextPeerId.newPeer ?_
  exact NetPeer.Sized.new m.channelsCount request.remoteEndpoint m.getNextPeerId.1

theorem newRejected (hm : Readable n m) (request : NetConnectionRequest)
    (rejectData : Option Bytes) (offset size : ℕ) :
    Readable n (m.newRejected request rejectData offset size) := by
  rw [NetManager.newRejected]
  refine shutdown ?_ _ _ _ _
  refine hm.getNextPeerId.newPeer ?_
  exact NetPeer.Sized.new m.channelsCount request.remoteEndpoint m.getNextPeerId.1

theorem rejectForce (hm : Readable n m) (request : NetConnectionRequest)
    (rejectData : Option Bytes) (offset size : ℕ) :
    Readable n (m.rejectForce request rejectData offset size) := by
  cases rejectData with
  | none => exact hm
  | some data =>
    rw [NetManager.rejectForce]
    split
    · exact hm
    · exact (hm.aside (m.poolGetPacket_aside _)).sendRawAndRecycle _ _

theorem onConnectionSolved (hm : Readable n m) (q : RequestRef) (rejectData : Option Bytes)
    (offset size : ℕ) : Readable n (m.onConnectionSolved q rejectData offset size).1 := by
  have herase {x : NetManager} (hx : Readable n x) (requests) :
      Readable n { x with connectionRequests := requests } :=
    ⟨hx.count, hx.held, hx.events, hx.requests⟩
  rw [NetManager.onConnectionSolved]
  dsimp only
  split
  · exact herase (hm.rejectForce _ _ _ _) _
  · split
    · exact herase hm _
    · split
      · exact herase (hm.newRejected _ _ _ _).addPeer _
      · exact herase ((hm.newAccepted _).addPeer.createEvent rfl rfl) _

theorem activate (hm : Readable n m) (q : RequestRef) (result : ConnectionRequestResult) :
    Readable n (m.activate q result) :=
  hm.setRequest (hm.requests q)

theorem accept (hm : Readable n m) (q : RequestRef) : Readable n (m.accept q).1 := by
  rw [NetManager.accept]
  split
  · exact hm
  · exact (hm.activate q _).onConnectionSolved q _ _ _

/-- `accept_if_key`, whatever the reader of the request returned. -/
theorem answerKey (hm : Readable n m) (q : RequestRef) (key : Option Bytes) {reader : NetDataReader}
    (h : q < m.requestCount → OfRequest reader) (expectedKey : Bytes) :
    Readable n (if key = some expectedKey then
      ({ m with requestAt := Function.update m.requestAt q { m.requestAt q with
          internalPacket.data := reader } }.activate q .accept).onConnectionSolved q none 0 0
      else ((({ m with requestAt := Function.update m.requestAt q { m.requestAt q with
          internalPacket.data := reader } }.activate q .reject).onConnectionSolved q none 0 0).1,
        none)).1 := by
  have hread : Readable n { m with requestAt := Function.update m.requestAt q { m.requestAt q with
      internalPacket.data := reader } } := hm.setRequest h
  by_cases hk : key = some expectedKey
  · rw [if_pos hk]
    exact (hread.activate q _).onConnectionSolved q _ _ _
  · rw [if_neg hk]
    exact (hread.activate q _).onConnectionSolved q _ _ _

theorem acceptIfKey (hm : Readable n m) (q : RequestRef) (expectedKey : Bytes) :
    Readable n (m.acceptIfKey q expectedKey).1 := by
  by_cases hu : (m.requestAt q).used
  · rw [NetManager.acceptIfKey, if_pos hu]
    exact hm
  · have hstring (hq : q < m.requestCount) :
        OfRequest (m.requestAt q).internalPacket.data.tryReadString.2 :=
      (hm.requests q hq).tryReadString
    unfold NetManager.acceptIfKey
    simp only [if_neg hu]
    generalize (m.requestAt q).internalPacket.data.tryReadString = key at hstring ⊢
    exact hm.answerKey q key.1 hstring expectedKey

theorem reject (hm : Readable n m) (q : RequestRef) (rejectData : Option Bytes)
    (offset size : ℕ) (force : Bool) : Readable n (m.reject q rejectData offset size force) := by
  rw [NetManager.reject]
  split
  · exact hm
  · exact (hm.activate q _).onConnectionSolved q _ _ _

theorem reply (hm : Readable n m) (property : PacketProperty) (size : ℕ) (addr : NetAddress) :
    Readable n ((m.poolGetWithProperty property size).2.sendRawAndRecycle
      (m.poolGetWithProperty property size).1 addr).1 :=
  (hm.aside (m.poolGetPacket_aside _)).sendRawAndRecycle _ addr

theorem onPeerNotFound (hm : Readable n m) (r : PeerRef) (packet : NetPacket) (addr : NetAddress) :
    Readable n (m.onPeerNotFound r packet addr) := by
  rw [NetManager.onPeerNotFound]
  dsimp only
  split
  · exact hm.aside (m.poolRecycle_aside packet)
  · split
    · refine sendRawAndRecycle ?_ _ _
      exact hm.touch rfl
    · split
      · exact hm.disconnectPeerForce _ _ _ noEventData
      · split
        · refine sendRawAndRecycle ?_ _ addr
          exact (hm.aside (m.poolRecycle_aside packet)).aside (poolGetPacket_aside _ _)
        · exact hm

/-- The packet of a disconnect comes with the event that it causes. -/
theorem onDisconnect (hm : Readable n m) (peer : Option PeerRef) {packet : NetPacket}
    (hv : packet.verify = true) (addr : NetAddress) :
    Readable n (m.onDisconnect peer packet addr) := by
  have hforce (r : PeerRef) (reason : DisconnectReason) : Readable n
      (m.disconnectPeerForce (m.peerAt r).endpoint reason 0 (some packet)) := by
    refine hm.disconnectPeerForce _ reason 0 (fun data h => ?_)
    cases h
    exact packet.getHeaderSize_le hv
  cases peer with
  | none => exact (hm.aside (m.poolRecycle_aside packet)).reply .shutdownOk 0 addr
  | some r =>
    rw [NetManager.onDisconnect]
    cases (m.peerAt r).processDisconnect packet with
    | none => exact hm.aside (m.poolRecycle_aside packet)
    | disconnect => exact (hforce r _).reply .shutdownOk 0 addr
    | reject => exact (hforce r _).reply .shutdownOk 0 addr

theorem onConnectAccept (hm : Readable n m) (peer : Option PeerRef) (packet : NetPacket) :
    Readable n (m.onConnectAccept peer packet) := by
  cases peer with
  | none => exact hm.aside (m.poolRecycle_aside packet)
  | some r =>
    rw [NetManager.onConnectAccept]
    cases hp : (NetConnectAcceptPacket.fromData packet).bind
        (m.peerAt r).processConnectAccept with
    | none => exact hm.aside (m.poolRecycle_aside packet)
    | some p =>
      obtain ⟨accept, -, hprocess⟩ := Option.bind_eq_some_iff.mp hp
      have hset : Readable n (m.setPeer r p) :=
        hm.touch (NetPeer.processConnectAccept_channels hprocess)
      exact (hset.createEvent rfl rfl).aside (poolRecycle_aside _ packet)

theorem onConnectRequest (hm : Readable n m) (peer : Option PeerRef) {packet : NetPacket}
    (hs : packet.size ≤ maxPacketSize) (addr : NetAddress) :
    Readable n (m.onConnectRequest peer packet addr) := by
  rw [NetManager.onConnectRequest]
  split
  · exact (hm.reply .invalidProtocol 0 addr).aside (poolRecycle_aside _ packet)
  · split
    · exact hm.aside (m.poolRecycle_aside packet)
    · next hrequest => exact hm.processConnectRequest addr peer (OfRequest.fromData hs hrequest)

theorem onUnconnected (hm : Readable n m) (enabled : Bool) (type : NetEventType)
    {packet : NetPacket} (hv : packet.verify = true) (addr : NetAddress) :
    Readable n (m.onUnconnected enabled type packet addr) := by
  rw [NetManager.onUnconnected]
  split
  · exact hm.aside (m.poolRecycle_aside packet)
  · refine hm.createEvent_source rfl (fun source h => ?_)
    cases h
    exact packet.getHeaderSize_le hv

theorem onSessionPacket (hm : Readable n m) {peer : Option PeerRef}
    (hpeer : ∀ r, peer = some r → r < n) {packet : NetPacket} (hv : packet.verify = true)
    (addr : NetAddress) : Readable n (m.onSessionPacket peer packet addr) := by
  cases peer with
  | none => exact (hm.aside (m.poolRecycle_aside packet)).reply .peerNotFound 0 addr
  | some r => exact hm.processPacket (hpeer r rfl) hv

theorem onMessageReceived (hm : Readable n m) {addr : NetAddress}
    (hpeer : ∀ r, m.tryGetPeer addr = some r → r < n) {packet : NetPacket}
    (hs : packet.size ≤ maxPacketSize) : Readable n (m.onMessageReceived packet addr) := by
  rw [NetManager.onMessageReceived]
  split
  · exact hm.aside (m.poolRecycle_aside packet)
  · next hv =>
    rw [Bool.not_eq_true, Bool.not_eq_false'] at hv
    dsimp only
    split
    · exact hm.onConnectRequest _ hs addr
    · exact hm.onUnconnected _ _ hv addr
    · exact hm.onUnconnected _ _ hv addr
    · split
      · exact hm
      · exact hm.onPeerNotFound _ packet addr
    · split
      · exact hm
      · split
        · exact hm.disconnectPeerForce _ _ _ noEventData
        · exact hm
    · exact hm.onDisconnect _ hv addr
    · exact hm.onConnectAccept _ packet
    · exact hm.onSessionPacket hpeer hv addr

theorem receiveLogic (hm : Readable n m) {addr : NetAddress}
    (hpeer : ∀ r, m.tryGetPeer addr = some r → r < n) {bytes : Bytes}
    (hs : bytes.length ≤ maxPacketSize) : Readable n (m.receiveLogic bytes addr) := by
  refine (hm.aside (m.poolGetPacket_aside maxPacketSize)).onMessageReceived (fun r hr => ?_) hs
  rw [tryGetPeer_poolGetPacket] at hr
  exact hpeer r hr

/-- The peers made meanwhile are as fit as those before. -/
theorem rebase (hm : Readable n m) : Readable m.peerCount m := { hm with count := le_rfl }

theorem updatePeers (hc : Consistent m) (hm : Readable m.peerCount m) (elapsed : ℤ)
    (fuel : ℕ) {peer : Option PeerRef}
    (hr : ∀ r, peer = some r → r < m.peerCount) :
    Readable (updatePeers elapsed fuel peer m).1.peerCount (updatePeers elapsed fuel peer m).1 := by
  induction fuel generalizing m peer with
  | zero => cases peer <;> exact hm
  | succ fuel ih =>
    cases peer with
    | none => exact hm
    | some r =>
      rw [NetManager.updatePeers]
      dsimp only
      split
      · exact ih hc hm (fun q hq => hc.listed.next r q hq)
      · have hupdate : Changes fullScope m (m.update r elapsed) := Changes.of_inSession
          (update_changes (fullScope_open.serving _) ⟨hc, hr r rfl, rfl⟩ trivial elapsed)
        have hc' := Changes.consistent hupdate hc
        exact ih hc' (hm.update (hr r rfl) elapsed).rebase (fun q hq => hc'.listed.next r q hq)

theorem updateLogic (hc : Consistent m) (hm : Readable m.peerCount m) (elapsed : ℤ) :
    Readable (m.updateLogic elapsed).peerCount (m.updateLogic elapsed) := by
  have hupdated := updatePeers hc hm elapsed m.peerCount hc.listed.head
  rw [NetManager.updateLogic]
  generalize (NetManager.updatePeers elapsed m.peerCount m.headPeer m).1 = m' at hupdated ⊢
  generalize (NetManager.updatePeers elapsed m.peerCount m.headPeer m).2 = addresses
  induction addresses generalizing m' with
  | nil => exact hupdated
  | cons addr addresses ih => exact ih _ (hupdated.removePeerInternal addr).rebase

theorem act (hc : Consistent m) (hm : Readable m.peerCount m) {a : Action} (ha : a.Enabled m) :
    Readable (m.act a).peerCount (m.act a) := by
  cases a with
  | receive bytes addr =>
    exact (hm.receiveLogic (fun r hr => (hc.registered _ r hr).1) ha).rebase
  | updateLogic elapsed => exact updateLogic hc hm elapsed
  | recycleEvent event => exact (hm.aside (m.recycleEvent_aside event)).rebase
  | connect address connectData uninitialized => exact (hm.connect address connectData _).rebase
  | accept q => exact (hm.accept q).rebase
  | acceptIfKey q expectedKey => exact (hm.acceptIfKey q expectedKey).rebase
  | reject q rejectData offset size force => exact (hm.reject q rejectData offset size force).rebase
  | disconnectAll data offset size => exact (hm.disconnectAll data offset size).rebase
  | send r data offset size channelNumber deliveryMethod userData =>
    exact (hm.sendInternal ha data offset size channelNumber deliveryMethod userData).rebase

end Readable

theorem Initial.readable {m : NetManager} (h : m.Initial) : Readable m.peerCount m where
  count := le_rfl
  held := fun r hr => absurd hr (by rw [h.peerCount]; exact Nat.not_lt_zero r)
  events := fun e he => absurd he (by rw [h.events]; exact List.not_mem_nil)
  requests := fun q hq => absurd hq (by rw [h.requestCount]; exact Nat.not_lt_zero q)

theorem readable_of_reachable {m : NetManager} (h : Reachable Initial Step m) :
    Readable m.peerCount m := by
  have hboth : Consistent m ∧ Readable m.peerCount m := by
    refine h.invariant (P := fun m => Consistent m ∧ Readable m.peerCount m)
      (fun m hi => ⟨hi.consistent, hi.readable⟩) ?_
    rintro m m' ⟨hc, hm⟩ hstep
    obtain ⟨a, ha, rfl⟩ := id hstep
    exact ⟨Changes.consistent (hstep.changes hc) hc, Readable.act hc hm ha⟩
  exact hboth.2

/-- However the application reads the data of an event, it gets nothing from behind the end of the
packet; the size of a packet is a 64-bit number. -/
theorem event_reads {m : NetManager} (h : Reachable Initial Step m) {e : NetEvent}
    (he : e ∈ m.events) {reader : NetDataReader} (hreader : e.reader = some reader)
    (hsize : reader.size < 2 ^ 64) (cs : List NetDataReader.ReadCall) :
    reader.position ≤ reader.size ∧
      ∀ range ∈ reader.allCopies cs, range.1 + range.2 ≤ reader.size := by
  have hinside := (readable_of_reachable h).events e he reader hreader
  exact ⟨hinside.position_le, hinside.allCopies hsize cs⟩

/-- A client that received an unreliable message. -/
def messagedClient : NetManager := connectedClient.act (.receive [0, 7] ⟨2, 1, 2, 0⟩)

theorem messagedClient_reachable : Reachable Initial Step messagedClient :=
  connectedClient_reachable.tail ⟨.receive _ _, show _ ≤ maxPacketSize by decide +kernel, rfl⟩

theorem event_reads_messagedClient : ∃ e ∈ messagedClient.events, ∃ reader, e.reader = some reader ∧
    reader.position ≤ reader.size ∧
      ∀ range ∈ reader.allCopies [.string, .fundamental 1], range.1 + range.2 ≤ reader.size := by
  have hlast : (messagedClient.events.getLast?.bind NetEvent.reader).map NetDataReader.size =
      some 2 := by decide +kernel
  obtain ⟨reader, hreader, hsize⟩ := Option.map_eq_some_iff.mp hlast
  obtain ⟨e, he, hreader⟩ := Option.bind_eq_some_iff.mp hreader
  have he := List.mem_of_getLast? he
  exact ⟨e, he, reader, hreader, event_reads messagedClient_reachable he hreader
    (hsize.trans_lt (by decide)) _⟩

/-- The action leaves the packet of the request `q` alone: to recycle its event deletes the packet,
while the reader goes on pointing into it. -/
def Action.Keeps (q : RequestRef) (a : Action) : Prop :=
  ∀ event, a = .recycleEvent event → event.connectionRequest ≠ some q

def KeepingStep (q : RequestRef) (m m' : NetManager) : Prop :=
  ∃ a : Action, a.Enabled m ∧ a.Keeps q ∧ m.act a = m'

theorem KeepingStep.step {q : RequestRef} {m m' : NetManager} (h : KeepingStep q m m') :
    Step m m' :=
  h.imp (fun _ ⟨enabled, _, act⟩ => ⟨enabled, act⟩)

/-- What the application reads from a request, the key included, lies inside the datagram exactly if
the datagram has room for the address that follows the header; everything that is read from a
shorter one lies behind its end. -/
theorem request_reads {m : NetManager} {q : RequestRef}
    (h : Reachable Initial (KeepingStep q) m) (hq : q < m.requestCount) {reader : NetDataReader}
    (hreader : (m.requestAt q).internalPacket.data = reader) (cs : List NetDataReader.ReadCall) :
    (connectRequestHeaderSize + NetAddress.rawSize ≤ reader.size →
      reader.position ≤ reader.size ∧
        ∀ range ∈ reader.allCopies cs, range.1 + range.2 ≤ reader.size) ∧
    (reader.size < connectRequestHeaderSize + NetAddress.rawSize →
      reader.size < reader.position ∧ ∀ range ∈ reader.allCopies cs, reader.size < range.1) := by
  subst hreader
  have hrequest :=
    (readable_of_reachable (h.mono (fun _ _ => KeepingStep.step))).requests q hq
  refine ⟨fun hlong => ?_, fun hshort => ?_⟩
  · have hsize := hrequest.size_le.trans_lt (show maxPacketSize < 2 ^ 64 by decide)
    have hinside := hrequest.inside_iff.mpr hlong
    exact ⟨hinside.position_le, hinside.allCopies hsize cs⟩
  · have hbehind := hshort.trans_le hrequest.position_ge
    exact ⟨hbehind, fun range hrange =>
      hbehind.trans_le (NetDataReader.position_le_of_allCopies _ cs range hrange)⟩

/-- A server that was asked by a request which ends inside the address. -/
def shortAskedServer : NetManager :=
  (NetManager.new (.const 5) (.const 0) (.const .ok)).act
    (.receive ((NetConnectRequestPacket.make [] ⟨2, 1, 2, 0⟩ 5 0).wire.take 20) ⟨2, 1, 3, 0⟩)

theorem shortAskedServer_reachable : Reachable Initial (KeepingStep 0) shortAskedServer :=
  (Reachable.initial (initial_new _ _ _)).tail
    ⟨.receive _ _, show _ ≤ maxPacketSize by decide +kernel, (fun _ h => by cases h), rfl⟩

/-- It already waits for an answer, and its key would be read from behind the datagram. -/
theorem request_reads_shortAskedServer : 0 < shortAskedServer.requestCount ∧
    ∀ range ∈ (shortAskedServer.requestAt 0).internalPacket.data.allCopies [.string],
      20 < range.1 := by
  have hcount : 0 < shortAskedServer.requestCount := by decide +kernel
  have hsize : (shortAskedServer.requestAt 0).internalPacket.data.size = 20 := by decide +kernel
  have hbehind := (request_reads shortAskedServer_reachable hcount rfl [.string]).2
    (hsize.trans_lt (by decide))
  rw [hsize] at hbehind
  exact ⟨hcount, hbehind.2⟩

end NetManager

end LiteNet.Manager
