import LiteNet.Library.RunningAverage
import LiteNet.Manager.SendFrame
import LiteNet.Manager.Update

/-! # What serving a peer keeps

The functions that hand packets of a peer on, merge, deliver and send them are made
of a few operations on the manager. A property that these operations keep is kept by
all the functions. None of them touches the fields that measure the round trip, the time
since the last packet or, unless a send fails, the state of the connection.
-/

namespace LiteNet.Manager
open Library Wire Channels

/-- The fields of a peer that measure the round trip: `m_rtt`, `m_rtt_count` and `m_avg_rtt` are a
running average. -/
structure RoundTrip where
  pingTimer : NetStopwatch
  pingSendTimer : ℤ
  pingPacket : NetPacket
  estimate : RunningAverage
  rttResetTimer : ℤ

def NetPeer.roundTrip (p : NetPeer) : RoundTrip where
  pingTimer := p.pingTimer
  pingSendTimer := p.pingSendTimer
  pingPacket := p.pingPacket
  estimate := ⟨p.rtt, p.rttCount, p.avgRtt⟩
  rttResetTimer := p.rttResetTimer

@[simp] theorem NetPeer.updateRoundtripTime_roundTrip (p : NetPeer) (sample : ℤ) :
    (p.updateRoundtripTime sample).roundTrip =
      { p.roundTrip with estimate := p.roundTrip.estimate.add sample } := rfl

/-- What serving a peer leaves alone. -/
structure Standing where
  roundTrip : RoundTrip
  timeSinceLastPacket : ℤ
  connectionState : ConnectionState

def NetPeer.standing (p : NetPeer) : Standing where
  roundTrip := p.roundTrip
  timeSinceLastPacket := p.timeSinceLastPacket
  connectionState := p.connectionState

namespace NetManager

/-- The operations that serving the peer `r` at the endpoint `e` is made of keep `P`: they send to
`e` only, and their events are about nobody or about the peer that is found under `e`. -/
structure ServingKeepsAt (r : PeerRef) (e : NetAddress) (P : NetManager → Prop) : Prop where
  endpoint : ∀ m, P m → (m.peerAt r).endpoint = e
  setPeer : ∀ m p, P m → p.endpoint = e → p.standing = (m.peerAt r).standing → P (m.setPeer r p)
  createEvent : ∀ m args, P m → (∀ q, args.peer = some q → m.tryGetPeer e = some q) →
    P (m.createEvent args)
  poolRecycle : ∀ m packet, P m → P (m.poolRecycle packet)
  poolGetPacket : ∀ m size, P m → P (m.poolGetPacket size).2
  sendRaw : ∀ m bytes, P m → P (m.sendRaw bytes e).1
  getCurrentTime : ∀ m, P m → P m.getCurrentTime.2

namespace ServingKeepsAt

variable {r : PeerRef} {e : NetAddress} {P : NetManager → Prop} {m : NetManager}

/-- A peer that only hands packets on stays at its endpoint. -/
theorem touch (h : ServingKeepsAt r e P) (hm : P m) {p : NetPeer}
    (endpoint : p.endpoint = (m.peerAt r).endpoint)
    (standing : p.standing = (m.peerAt r).standing) : P (m.setPeer r p) :=
  h.setPeer m p hm (endpoint.trans (h.endpoint m hm)) standing

theorem sendTo (h : ServingKeepsAt r e P) (hm : P m) (bytes : Bytes) {endpoint : NetAddress}
    (he : endpoint = e) : P (m.sendRaw bytes endpoint).1 :=
  he ▸ h.sendRaw m bytes hm

theorem sendMerged (h : ServingKeepsAt r e P) (hm : P m) : P (m.sendMerged r) := by
  rw [NetManager.sendMerged]
  dsimp only
  split
  · exact hm
  · exact h.touch (h.sendTo hm _ (h.endpoint m hm)) rfl rfl

theorem sendUserData (h : ServingKeepsAt r e P) (hm : P m) (packet : NetPacket) :
    P (m.sendUserData r packet) := by
  rw [NetManager.sendUserData]
  dsimp only
  split
  · exact h.sendTo hm _ (h.endpoint m hm)
  · split
    · exact h.touch (h.sendMerged hm) rfl rfl
    · exact h.touch hm rfl rfl

theorem createReceiveEvent (h : ServingKeepsAt r e P) (hm : P m) (packet : NetPacket)
    (method : DeliveryMethod) (channelNumber : UInt8) (headerSize : ℕ) {endpoint : NetAddress}
    (he : endpoint = e) :
    P (m.createReceiveEvent packet method channelNumber headerSize endpoint) :=
  h.createEvent m _ hm (fun _ hq => he ▸ hq)

theorem messageDelivered (h : ServingKeepsAt r e P) (hm : P m) {address : NetAddress}
    (he : address = e) : P (m.messageDelivered address) := by
  rw [NetManager.messageDelivered]
  split
  · exact hm
  · next q hq => exact h.createEvent m _ hm (fun _ hs => he ▸ hq.trans hs)

theorem recycleAndDeliver (h : ServingKeepsAt r e P) (hm : P m) (packet : NetPacket) :
    P (m.recycleAndDeliver r packet) := by
  have hdelivered := h.messageDelivered hm (h.endpoint m hm)
  have hfragment : P (m.fragmentDelivered r packet) := by
    rw [fragmentDelivered]
    split
    · exact hm
    · dsimp only
      split
      · exact h.touch hdelivered rfl rfl
      · exact h.touch hm rfl rfl
  rw [NetManager.recycleAndDeliver]
  split
  · exact h.poolRecycle m packet hm
  · apply h.poolRecycle
    split
    · exact hfragment
    · exact hdelivered

theorem clearFragments (h : ServingKeepsAt r e P) (hm : P m)
    (fragments : List (Option NetPacket)) : P (m.clearFragments fragments) := by
  rw [NetManager.clearFragments]
  induction fragments generalizing m with
  | nil => exact hm
  | cons fragment fragments ih =>
    cases fragment with
    | none => exact ih hm
    | some packet => exact ih (h.poolRecycle m packet hm)

theorem assemble (h : ServingKeepsAt r e P) (hm : P m) (fragments : List (Option NetPacket))
    (pos : ℕ) (result : NetPacket) : P (assemble fragments pos result m).1 := by
  induction fragments generalizing m pos result with
  | nil => exact hm
  | cons fragment fragments ih =>
    cases fragment with
    | none => exact ih hm pos result
    | some packet =>
      rw [NetManager.assemble]
      split
      · exact h.clearFragments hm _
      · exact ih (h.poolRecycle m packet hm) _ _

theorem deliverFragments (h : ServingKeepsAt r e P) (hm : P m) (method : DeliveryMethod)
    (channelNumber : UInt8) (held : IncomingFragments) {endpoint : NetAddress}
    (he : endpoint = e) : P (m.deliverFragments method channelNumber held endpoint) := by
  have hassembled := h.assemble (h.poolGetPacket m held.totalSize hm) held.fragments 0
    (m.poolGetPacket held.totalSize).1
  rw [NetManager.deliverFragments]
  split
  · exact hassembled
  · exact h.createReceiveEvent hassembled _ _ _ _ he

theorem addReliablePacket (h : ServingKeepsAt r e P) (hm : P m) (method : DeliveryMethod)
    (packet : NetPacket) : P (m.addReliablePacket r method packet) := by
  have hhold : ∀ held, P (m.holdFragments r packet.fragmentId held) := fun held =>
    h.touch hm rfl rfl
  have hendpoint := h.endpoint m hm
  rw [NetManager.addReliablePacket]
  dsimp only
  split
  · exact h.createReceiveEvent hm _ _ _ _ hendpoint
  · split
    · exact h.poolRecycle _ packet (hhold _)
    · split
      · exact hhold _
      · exact h.deliverFragments (hhold _) _ _ _ hendpoint

theorem applyCall (h : ServingKeepsAt r e P) (hm : P m) (idx : UInt8) (call : PeerCall) :
    P (m.applyCall r idx call) := by
  cases call with
  | addToReliableChannelSendQueue => exact h.touch hm rfl rfl
  | addReliablePacket method packet => exact h.addReliablePacket hm method packet
  | createReceiveEvent packet method channelNumber headerSize =>
    exact h.createReceiveEvent hm packet method channelNumber headerSize (h.endpoint m hm)
  | sendUserData packet => exact h.sendUserData hm packet
  | recycleAndDeliver packet => exact h.recycleAndDeliver hm packet
  | poolRecycle packet => exact h.poolRecycle m packet hm

theorem applyCalls (h : ServingKeepsAt r e P) (hm : P m) (idx : UInt8) (calls : List PeerCall) :
    P (m.applyCalls r idx calls) := by
  rw [NetManager.applyCalls]
  induction calls generalizing m with
  | nil => exact hm
  | cons call calls ih => exact ih (h.applyCall hm idx call)

theorem sendRawAndRecycle (h : ServingKeepsAt r e P) (hm : P m) (packet : NetPacket)
    {endpoint : NetAddress} (he : endpoint = e) : P (m.sendRawAndRecycle packet endpoint).1 := by
  rw [NetManager.sendRawAndRecycle]
  exact h.poolRecycle _ packet (h.sendTo hm _ he)

theorem processPing (h : ServingKeepsAt r e P) (hm : P m) (packet : NetPacket) :
    P (m.processPing r packet) := by
  have hset : ∀ p : NetPeer, p.endpoint = (m.peerAt r).endpoint →
      p.standing = (m.peerAt r).standing → P (m.getCurrentTime.2.setPeer r p) :=
    fun _ => h.touch (h.getCurrentTime m hm)
  have hendpoint := h.endpoint m hm
  rw [NetManager.processPing]
  dsimp only
  split
  · apply h.poolRecycle
    refine h.sendTo (hset _ ?_ ?_) _ hendpoint
    · rfl
    · rfl
  · exact h.poolRecycle m packet hm

theorem connectionLatencyUpdated (h : ServingKeepsAt r e P) (hm : P m) {address : NetAddress}
    (he : address = e) (latency : ℤ) : P (m.connectionLatencyUpdated address latency) := by
  rw [NetManager.connectionLatencyUpdated]
  split
  · exact hm
  · next q hq => exact h.createEvent m _ hm (fun _ hs => he ▸ hq.trans hs)

theorem processChanneled (h : ServingKeepsAt r e P) (hm : P m) (packet : NetPacket) :
    P (m.processChanneled r packet) := by
  rw [NetManager.processChanneled]
  dsimp only
  generalize hp : (if packet.property = .ack then m.peerAt r
    else (m.peerAt r).createChannel packet.channelId) = p
  have hsame : p.endpoint = (m.peerAt r).endpoint ∧ p.standing = (m.peerAt r).standing := by
    rw [← hp]
    split
    · exact ⟨rfl, rfl⟩
    · rw [NetPeer.createChannel]
      split <;> exact ⟨rfl, rfl⟩
  split
  · exact h.poolRecycle m packet hm
  · split
    · exact h.poolRecycle m packet hm
    · next channel hchannel =>
      have hset : P (m.setPeer r { p with
          channels := Function.update p.channels packet.channelId
            (some (channel.processPacket packet).1) }) :=
        h.touch hm hsame.1 hsame.2
      have hcalls := h.applyCalls hset packet.channelId (channel.processPacket packet).2.1
      split
      · exact hcalls
      · exact h.poolRecycle _ packet hcalls

theorem processMtuPacket (h : ServingKeepsAt r e P) (hm : P m) (packet : NetPacket) :
    P (m.processMtuPacket r packet) := by
  have hset : ∀ p : NetPeer, p.endpoint = (m.peerAt r).endpoint →
      p.standing = (m.peerAt r).standing → P (m.setPeer r p) := fun _ => h.touch hm
  have hendpoint := h.endpoint m hm
  rw [NetManager.processMtuPacket]
  dsimp only
  split_ifs
  · exact h.poolRecycle m packet hm
  · exact h.poolRecycle m packet hm
  · refine h.sendRawAndRecycle (hset _ ?_ ?_) _ hendpoint
    · rfl
    · rfl
  · exact h.poolRecycle m packet hm
  · exact h.poolRecycle m packet hm
  · exact h.poolRecycle _ packet (hset _ rfl rfl)
  · exact h.poolRecycle _ packet (hset _ rfl rfl)

theorem sendMtuCheck (h : ServingKeepsAt r e P) (hm : P m) (newMtu : ℕ) {endpoint : NetAddress}
    (he : endpoint = e) : P (m.sendMtuCheck newMtu endpoint).1 := by
  rw [NetManager.sendMtuCheck]
  exact h.sendRawAndRecycle (h.poolGetPacket m newMtu hm) _ he

theorem updateMtuLogic (h : ServingKeepsAt r e P) (hm : P m) (deltaTime : ℤ) :
    P (m.updateMtuLogic r deltaTime) := by
  have hfinish : ∀ m, P m → P (m.setPeer r { m.peerAt r with finishMtu := true }) :=
    fun m hm => h.touch hm rfl rfl
  have hset : ∀ p : NetPeer, p.endpoint = (m.peerAt r).endpoint →
      p.standing = (m.peerAt r).standing → P (m.setPeer r p) := fun _ => h.touch hm
  have hendpoint := h.endpoint m hm
  rw [NetManager.updateMtuLogic]
  dsimp only
  split_ifs
  · exact hm
  · exact hset _ rfl rfl
  · exact hset _ rfl rfl
  · exact hset _ rfl rfl
  · apply hfinish
    refine h.sendMtuCheck (hset _ ?_ ?_) _ hendpoint
    · rfl
    · rfl
  · refine h.sendMtuCheck (hset _ ?_ ?_) _ hendpoint
    · rfl
    · rfl

theorem updateChannels (h : ServingKeepsAt r e P) (count : ℕ) (hm : P m) :
    P (updateChannels r count m) := by
  induction count generalizing m with
  | zero => exact hm
  | succ count ih =>
    have hset : ∀ p : NetPeer, p.endpoint = (m.peerAt r).endpoint →
        p.standing = (m.peerAt r).standing → P (m.getCurrentTime.2.setPeer r p) :=
      fun _ => h.touch (h.getCurrentTime m hm)
    rw [NetManager.updateChannels]
    dsimp only
    split
    · exact hm
    · next idx queue hqueue =>
      split
      · exact h.touch hm rfl rfl
      · next channel hchannel =>
        have hcalls := h.applyCalls (hset { m.peerAt r with
          channelSendQueue := queue
          channels := Function.update (m.peerAt r).channels idx
            (some (channel.sendAndCheckQueue ⟨(m.peerAt r).connectNumber, (m.peerAt r).resendDelay,
              m.getCurrentTime.1.toInt⟩).1) } rfl rfl) idx
          (channel.sendAndCheckQueue ⟨(m.peerAt r).connectNumber, (m.peerAt r).resendDelay,
            m.getCurrentTime.1.toInt⟩).2.1
        apply ih
        split
        · exact h.touch hcalls rfl rfl
        · exact hcalls

theorem updateUnreliable (h : ServingKeepsAt r e P) (hm : P m) : P (m.updateUnreliable r) := by
  rw [NetManager.updateUnreliable]
  have hemptied : P (m.setPeer r { m.peerAt r with unreliableChannel := [] }) :=
    h.touch hm rfl rfl
  generalize m.setPeer r { m.peerAt r with unreliableChannel := [] } = emptied at hemptied ⊢
  induction (m.peerAt r).unreliableChannel generalizing emptied with
  | nil => exact hemptied
  | cons packet packets ih => exact ih _ (h.poolRecycle _ packet (h.sendUserData hemptied packet))

theorem addToQueue (h : ServingKeepsAt r e P) (hm : P m) (idx : UInt8) (packet : NetPacket) :
    P (m.addToQueue r idx packet) := by
  have hset : ∀ p : NetPeer, p.endpoint = (m.peerAt r).endpoint →
      p.standing = (m.peerAt r).standing → P (m.setPeer r p) := fun _ => h.touch hm
  rw [NetManager.addToQueue]
  dsimp only
  split
  · exact hm
  · refine h.applyCalls (hset _ ?_ ?_) idx _
    · rfl
    · rfl

theorem sendFragments (h : ServingKeepsAt r e P) (hm : P m) (idx : UInt8) (data : Bytes)
    (offset userData currentFragmentId packetDataSize totalPackets fuel partIdx size : ℕ) :
    P (sendFragments r idx data offset userData currentFragmentId packetDataSize totalPackets fuel
      partIdx size m) := by
  induction fuel generalizing m partIdx size with
  | zero => exact hm
  | succ fuel ih => exact ih (h.addToQueue (h.poolGetPacket m _ hm) idx _) _ _

theorem sendInternal (h : ServingKeepsAt r e P) (hm : P m) (data : Bytes) (offset size : ℕ)
    (channelNumber : UInt8) (deliveryMethod : DeliveryMethod) (userData : ℕ) :
    P (m.sendInternal r data offset size channelNumber deliveryMethod userData) := by
  rw [NetManager.sendInternal]
  dsimp only
  generalize hp : (if deliveryMethod = .unreliable then m.peerAt r else _) = p
  have hsame : p.endpoint = (m.peerAt r).endpoint ∧ p.standing = (m.peerAt r).standing := by
    rw [← hp]
    split
    · exact ⟨rfl, rfl⟩
    · rw [NetPeer.createChannel]
      split <;> exact ⟨rfl, rfl⟩
  have hchannel : P (m.setPeer r p) := h.touch hm hsame.1 hsame.2
  have hself := m.setPeer_self r p
  generalize m.setPeer r p = x at hchannel hself ⊢
  generalize (if deliveryMethod = .unreliable then PacketProperty.unreliable
    else .channeled) = property
  generalize (size / (p.mtu - property.getHeaderSize - fragmentHeaderSize) +
    if size % (p.mtu - property.getHeaderSize - fragmentHeaderSize) = 0 then 0 else 1) =
      totalPackets
  have hset : ∀ {y : NetManager} {p' : NetPeer}, P y → y.peerAt = x.peerAt →
      p'.endpoint = p.endpoint → p'.standing = p.standing → P (y.setPeer r p') := by
    intro y p' hy hpeers hendpoint hstanding
    have hyr : y.peerAt r = p := by rw [hpeers, hself]
    exact h.touch hy (by rw [hyr, hendpoint]) (by rw [hyr, hstanding])
  split
  · exact hm
  · split
    · split
      · exact h.createEvent x _ hchannel (fun _ hq => by cases hq)
      · split
        · exact h.createEvent x _ hchannel (fun _ hq => by cases hq)
        · refine h.sendFragments (hset hchannel rfl ?_ ?_) _ _ _ _ _ _ _ _ _ _
          · rfl
          · rfl
    · have hget := h.poolGetPacket x (property.getHeaderSize + size) hchannel
      split
      · refine hset hget (x.poolGetPacket_frame _).1 ?_ ?_
        · rfl
        · rfl
      · exact h.addToQueue hget _ _

end ServingKeepsAt

/-- The operations that serving the peer `r` is made of keep `P`, whatever the peer's endpoint. -/
structure ServingKeeps (r : PeerRef) (P : NetManager → Prop) : Prop where
  setPeer : ∀ m p, P m → p.roundTrip = (m.peerAt r).roundTrip → P (m.setPeer r p)
  createEvent : ∀ m args, P m → P (m.createEvent args)
  poolRecycle : ∀ m packet, P m → P (m.poolRecycle packet)
  poolGetPacket : ∀ m size, P m → P (m.poolGetPacket size).2
  sendRaw : ∀ m bytes endpoint, P m → P (m.sendRaw bytes endpoint).1
  getCurrentTime : ∀ m, P m → P m.getCurrentTime.2

namespace ServingKeeps

variable {r : PeerRef} {P : NetManager → Prop} {m : NetManager}

theorem at_endpoint (h : ServingKeeps r P) (e : NetAddress) :
    ServingKeepsAt r e (fun m => P m ∧ (m.peerAt r).endpoint = e) where
  endpoint := fun _ hm => hm.2
  setPeer := fun m p hm hp hs =>
    ⟨h.setPeer m p hm.1 (congrArg Standing.roundTrip hs), by rw [setPeer_self, hp]⟩
  createEvent := fun m args hm _ => ⟨h.createEvent m args hm.1, hm.2⟩
  poolRecycle := fun m packet hm =>
    ⟨h.poolRecycle m packet hm.1, by rw [(m.poolRecycle_frame packet).1, hm.2]⟩
  poolGetPacket := fun m size hm =>
    ⟨h.poolGetPacket m size hm.1, by rw [(m.poolGetPacket_frame size).1, hm.2]⟩
  sendRaw := fun m bytes hm => by
    obtain ⟨s, hs⟩ := (m.sendRaw_frame bytes e r).1
    exact ⟨h.sendRaw m bytes e hm.1, by rw [hs, hm.2]⟩
  getCurrentTime := fun m hm => ⟨h.getCurrentTime m hm.1, hm.2⟩

theorem sendMerged (h : ServingKeeps r P) (hm : P m) : P (m.sendMerged r) :=
  ((h.at_endpoint _).sendMerged ⟨hm, rfl⟩).1

theorem processPing (h : ServingKeeps r P) (hm : P m) (packet : NetPacket) :
    P (m.processPing r packet) :=
  ((h.at_endpoint _).processPing ⟨hm, rfl⟩ packet).1

theorem connectionLatencyUpdated (h : ServingKeeps r P) (hm : P m) (address : NetAddress)
    (latency : ℤ) : P (m.connectionLatencyUpdated address latency) := by
  rw [NetManager.connectionLatencyUpdated]
  split
  · exact hm
  · exact h.createEvent m _ hm

theorem processChanneled (h : ServingKeeps r P) (hm : P m) (packet : NetPacket) :
    P (m.processChanneled r packet) :=
  ((h.at_endpoint _).processChanneled ⟨hm, rfl⟩ packet).1

theorem processMtuPacket (h : ServingKeeps r P) (hm : P m) (packet : NetPacket) :
    P (m.processMtuPacket r packet) :=
  ((h.at_endpoint _).processMtuPacket ⟨hm, rfl⟩ packet).1

theorem updateMtuLogic (h : ServingKeeps r P) (hm : P m) (deltaTime : ℤ) :
    P (m.updateMtuLogic r deltaTime) :=
  ((h.at_endpoint _).updateMtuLogic ⟨hm, rfl⟩ deltaTime).1

theorem updateChannels (h : ServingKeeps r P) (count : ℕ) (hm : P m) :
    P (updateChannels r count m) :=
  ((h.at_endpoint _).updateChannels count ⟨hm, rfl⟩).1

theorem updateUnreliable (h : ServingKeeps r P) (hm : P m) : P (m.updateUnreliable r) :=
  ((h.at_endpoint _).updateUnreliable ⟨hm, rfl⟩).1

end ServingKeeps

end NetManager

end LiteNet.Manager
