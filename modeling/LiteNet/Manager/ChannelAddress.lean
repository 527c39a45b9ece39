import LiteNet.Manager.DispatchChanges

/-! # Which channel a packet goes to

The index of a channel is checked against different bounds where packets are sent
and where they are received; what a channel reports depends on its index alone.
-/

namespace LiteNet.Manager
open Library Wire Channels Relation

/-- The index that `send_internal` gives to `create_channel`. -/
def sendIndex (channelNumber : UInt8) (deliveryMethod : DeliveryMethod) : UInt8 :=
  UInt8.ofNat (channelNumber.toNat * channelTypeCount + deliveryMethod.code)

/-- The index tells number and method apart as long as it fits a byte. -/
theorem sendIndex_iff (channelNumber : UInt8) {deliveryMethod : DeliveryMethod}
    (h : deliveryMethod ≠ .unreliable) (channelsCount : ℕ) :
    (sendIndex channelNumber deliveryMethod).toNat < channelsCount * channelTypeCount ∧
        (sendIndex channelNumber deliveryMethod).toNat / channelTypeCount = channelNumber.toNat ∧
        (sendIndex channelNumber deliveryMethod).toNat % channelTypeCount = deliveryMethod.code ↔
      channelNumber.toNat < channelsCount ∧ channelNumber.toNat < 64 := by
  have hcode : deliveryMethod.code < 4 := by
    cases deliveryMethod with
    | unreliable => exact absurd rfl h
    | _ => decide
  have hlt := channelNumber.toNat_lt
  rw [sendIndex, UInt8.toNat_ofNat']
  simp only [channelTypeCount]
  omega

theorem deliveryMethod_code_injective : Function.Injective DeliveryMethod.code := by
  intro a b h
  cases a <;> cases b <;> first | rfl | cases h

namespace NetPeer

/-- `m_channels[idx]`, when there is one. -/
def channelChecked (p : NetPeer) (idx : UInt8) : Option (Option NetChannel) :=
  if idx.toNat < p.channelCount then some (p.channels idx) else none

/-- `create_channel` with a checked access. -/
def createChannelChecked (p : NetPeer) (idx : UInt8) : Option NetPeer :=
  match p.channelChecked idx with
  | none => none
  | some (some _) => some p
  | some none => some { p with channels := Function.update p.channels idx (some (.create idx)) }

end NetPeer

namespace NetManager

/-- `process_packet` for a packet of a channel, with checked accesses. -/
def processChanneledChecked (m : NetManager) (r : PeerRef) (packet : NetPacket) :
    Option NetManager :=
  let p := m.peerAt r
  let idx := packet.channelId
  if p.channelCount < idx.toNat then some (m.poolRecycle packet)
  else
    match if packet.property = .ack then some p else p.createChannelChecked idx with
    | none => none
    | some p =>
      match p.channelChecked idx with
      | none => none
      | some none => some (m.poolRecycle packet)
      | some (some channel) =>
        let processed := channel.processPacket packet
        let m := m.setPeer r { p with
          channels := Function.update p.channels idx (some processed.1) }
        let m := m.applyCalls r idx processed.2.1
        some (if processed.2.2 then m else m.poolRecycle packet)

/-- `send_internal` with a checked access: it uses `m_channels` in `create_channel` only. -/
def sendInternalChecked (m : NetManager) (r : PeerRef) (data : Bytes) (offset size : ℕ)
    (channelNumber : UInt8) (deliveryMethod : DeliveryMethod) (userData : ℕ) : Option NetManager :=
  let p := m.peerAt r
  let sent := m.sendInternal r data offset size channelNumber deliveryMethod userData
  if p.connectionState ≠ .connected ∨ p.channelCount ≤ channelNumber.toNat then some m
  else if deliveryMethod = .unreliable then some sent
  else (p.createChannelChecked (sendIndex channelNumber deliveryMethod)).map fun _ => sent

end NetManager

section Checked

variable {p : NetPeer} {idx : UInt8}

theorem NetPeer.createChannelChecked_eq (h : idx.toNat < p.channelCount) :
    p.createChannelChecked idx = some (p.createChannel idx) := by
  rw [createChannelChecked, channelChecked, if_pos h, createChannel]
  cases p.channels idx <;> rfl

theorem NetPeer.createChannelChecked_none (h : p.channelCount ≤ idx.toNat) :
    p.createChannelChecked idx = none := by
  rw [createChannelChecked, channelChecked, if_neg (not_lt.mpr h)]

theorem NetPeer.createChannel_channelCount (p : NetPeer) (idx : UInt8) :
    (p.createChannel idx).channelCount = p.channelCount := by
  rw [createChannel]
  split <;> rfl

namespace NetManager

variable {m : NetManager} {r : PeerRef}

/-- A packet whose id is the number of channels is looked up behind the last one. -/
theorem processChanneledChecked_none {packet : NetPacket}
    (h : packet.channelId.toNat = (m.peerAt r).channelCount) :
    m.processChanneledChecked r packet = none := by
  have hcreate := NetPeer.createChannelChecked_none h.ge
  rw [processChanneledChecked]
  dsimp only
  rw [if_neg h.le.not_gt]
  by_cases hack : packet.property = .ack
  · rw [if_pos hack]
    dsimp only
    rw [NetPeer.channelChecked, if_neg h.ge.not_gt]
  · rw [if_neg hack, hcreate]

theorem processChanneledChecked_eq {packet : NetPacket}
    (h : packet.channelId.toNat ≠ (m.peerAt r).channelCount) :
    m.processChanneledChecked r packet = some (m.processChanneled r packet) := by
  rw [processChanneledChecked, processChanneled]
  dsimp only
  by_cases hover : (m.peerAt r).channelCount < packet.channelId.toNat
  · rw [if_pos hover, if_pos hover]
  · have hlt : packet.channelId.toNat < (m.peerAt r).channelCount :=
      lt_of_le_of_ne (not_lt.mp hover) h
    have hcreate : (if packet.property = .ack then some (m.peerAt r) else
        (m.peerAt r).createChannelChecked packet.channelId) =
          some (if packet.property = .ack then m.peerAt r else
            (m.peerAt r).createChannel packet.channelId) := by
      rw [NetPeer.createChannelChecked_eq hlt]
      split <;> rfl
    have hcount : (if packet.property = .ack then m.peerAt r else
        (m.peerAt r).createChannel packet.channelId).channelCount =
          (m.peerAt r).channelCount := by
      split
      · rfl
      · exact NetPeer.createChannel_channelCount _ _
    rw [if_neg hover, if_neg hover, hcreate]
    generalize (if packet.property = .ack then m.peerAt r else
      (m.peerAt r).createChannel packet.channelId) = p at hcount ⊢
    dsimp only
    rw [NetPeer.channelChecked, hcount, if_pos hlt]
    cases p.channels packet.channelId <;> rfl

/-- A call that is not rejected is carried out where its index has a channel. -/
theorem sendInternalChecked_eq {channelNumber : UInt8} {deliveryMethod : DeliveryMethod}
    (hs : (m.peerAt r).connectionState = .connected)
    (hn : channelNumber.toNat < (m.peerAt r).channelCount) (hd : deliveryMethod ≠ .unreliable)
    (data : Bytes) (offset size userData : ℕ) :
    m.sendInternalChecked r data offset size channelNumber deliveryMethod userData =
      if (sendIndex channelNumber deliveryMethod).toNat < (m.peerAt r).channelCount then
        some (m.sendInternal r data offset size channelNumber deliveryMethod userData)
      else none := by
  have hnot : ¬ ((m.peerAt r).connectionState ≠ .connected ∨
      (m.peerAt r).channelCount ≤ channelNumber.toNat) := by
    simp [hs, hn]
  rw [sendInternalChecked, if_neg hnot, if_neg hd]
  split
  · next hlt =>
    rw [NetPeer.createChannelChecked_eq hlt, Option.map_some]
  · next hge =>
    rw [NetPeer.createChannelChecked_none (not_lt.mp hge), Option.map_none]

end NetManager

end Checked

/-- What a channel of this index reports. -/
def ReportsIndex (idx : UInt8) (e : NetEvent) : Prop :=
  e.type = .receive → e.deliveryMethod.code = idx.toNat % channelTypeCount ∧
    e.channelNumber = UInt8.ofNat (idx.toNat / channelTypeCount)

/-- Of the channels of the peer `r` only the one with this index is touched, and what is reported is
reported under the index. -/
structure KeepsTo (r : PeerRef) (idx : UInt8) (m m' : NetManager) : Prop where
  others : ∀ j, j ≠ idx → (m'.peerAt r).channels j = (m.peerAt r).channels j
  filled : ((m.peerAt r).channels idx).isSome → ((m'.peerAt r).channels idx).isSome
  events : ∃ es, m'.events = m.events ++ es ∧ ∀ e ∈ es, ReportsIndex idx e

section KeepsTo

variable {r : PeerRef} {idx : UInt8} {m m' m'' : NetManager}

theorem KeepsTo.trans (h : KeepsTo r idx m m') (h' : KeepsTo r idx m' m'') :
    KeepsTo r idx m m'' where
  others := fun j hj => (h'.others j hj).trans (h.others j hj)
  filled := fun hf => h'.filled (h.filled hf)
  events := by
    obtain ⟨es, he, hes⟩ := h.events
    obtain ⟨es', he', hes'⟩ := h'.events
    exact ⟨es ++ es', by rw [he', he, List.append_assoc],
      fun e hm => (List.mem_append.mp hm).elim (hes e) (hes' e)⟩

theorem Aside.keepsTo (h : Aside m m') : KeepsTo r idx m m' where
  others := by simp [h.peerAt]
  filled := by simp [h.peerAt]
  events := ⟨[], by rw [h.events, List.append_nil], by simp⟩

theorem KeepsTo.setPeer {p : NetPeer} (others : ∀ j, j ≠ idx → p.channels j = (m.peerAt r).channels j)
    (filled : ((m.peerAt r).channels idx).isSome → (p.channels idx).isSome) :
    KeepsTo r idx m (m.setPeer r p) where
  others := by simpa using others
  filled := by simpa using filled
  events := ⟨[], (List.append_nil _).symm, by simp⟩

theorem KeepsTo.frame {p : NetPeer} (h : p.channels = (m.peerAt r).channels) :
    KeepsTo r idx m (m.setPeer r p) :=
  .setPeer (fun j _ => congrFun h j) (fun hf => h ▸ hf)

theorem KeepsTo.pushEvent {e : NetEvent} (h : ReportsIndex idx e) :
    KeepsTo r idx m (m.pushEvent e) :=
  ⟨fun _ _ => rfl, id, [e], rfl, fun _ he => List.mem_singleton.mp he ▸ h⟩

end KeepsTo

namespace NetManager

section Calls

variable {m : NetManager} {r : PeerRef} {idx : UInt8}

theorem createReceiveEvent_keepsTo (m : NetManager) (packet : NetPacket) {method : DeliveryMethod}
    {channelNumber : UInt8} (headerSize : ℕ) (endpoint : NetAddress)
    (hm : method.code = idx.toNat % channelTypeCount)
    (hn : channelNumber = UInt8.ofNat (idx.toNat / channelTypeCount)) :
    KeepsTo r idx m (m.createReceiveEvent packet method channelNumber headerSize endpoint) :=
  .pushEvent fun _ => ⟨hm, hn⟩

theorem messageDelivered_keepsTo (m : NetManager) (address : NetAddress) :
    KeepsTo r idx m (m.messageDelivered address) := by
  rw [messageDelivered]
  split
  · exact (Aside.refl m).keepsTo
  · exact .pushEvent (fun h => by cases h)

theorem recycleAndDeliver_keepsTo (m : NetManager) (packet : NetPacket) :
    KeepsTo r idx m (m.recycleAndDeliver r packet) := by
  have hfragment : KeepsTo r idx m (m.fragmentDelivered r packet) := by
    rw [fragmentDelivered]
    split
    · exact (Aside.refl m).keepsTo
    · dsimp only
      split
      · exact (m.messageDelivered_keepsTo _).trans (.frame rfl)
      · exact .frame rfl
  rw [recycleAndDeliver]
  split
  · exact (m.poolRecycle_aside packet).keepsTo
  · refine KeepsTo.trans ?_ (poolRecycle_aside _ _).keepsTo
    split
    · exact hfragment
    · exact m.messageDelivered_keepsTo _

theorem deliverFragments_keepsTo (m : NetManager) {method : DeliveryMethod} {channelNumber : UInt8}
    (held : IncomingFragments) (endpoint : NetAddress)
    (hm : method.code = idx.toNat % channelTypeCount)
    (hn : channelNumber = UInt8.ofNat (idx.toNat / channelTypeCount)) :
    KeepsTo r idx m (m.deliverFragments method channelNumber held endpoint) := by
  have haside := (m.poolGetPacket_aside held.totalSize).trans
    (assemble_aside held.fragments 0 (m.poolGetPacket held.totalSize).1 _)
  rw [deliverFragments]
  refine haside.keepsTo.trans ?_
  split
  · exact (Aside.refl _).keepsTo
  · exact createReceiveEvent_keepsTo _ _ _ _ hm hn

theorem addReliablePacket_keepsTo (m : NetManager) {method : DeliveryMethod} {packet : NetPacket}
    (hm : method.code = idx.toNat % channelTypeCount) (hp : packet.channelId = idx) :
    KeepsTo r idx m (m.addReliablePacket r method packet) := by
  have hn : UInt8.ofNat (packet.channelId.toNat / channelTypeCount) =
      UInt8.ofNat (idx.toNat / channelTypeCount) := by rw [hp]
  have hhold : ∀ held, KeepsTo r idx m (m.holdFragments r packet.fragmentId held) :=
    fun held => .frame rfl
  rw [addReliablePacket]
  dsimp only
  split
  · exact createReceiveEvent_keepsTo _ _ _ _ hm hn
  · split
    · exact (hhold _).trans (poolRecycle_aside _ _).keepsTo
    · split
      · exact hhold _
      · exact (hhold _).trans (deliverFragments_keepsTo _ _ _ hm hn)

/-- A call that concerns one index, and sends nothing, keeps to it. -/
theorem applyCall_keepsTo {call : PeerCall} (hs : call.Silent) (h : call.Addressed idx)
    (slot : UInt8) : KeepsTo r idx m (m.applyCall r slot call) := by
  cases call with
  | addToReliableChannelSendQueue => exact .frame rfl
  | addReliablePacket method packet => exact addReliablePacket_keepsTo m h.1 h.2
  | createReceiveEvent packet method channelNumber headerSize =>
    exact createReceiveEvent_keepsTo _ _ _ _ h.1 h.2
  | sendUserData packet => exact absurd rfl (hs packet)
  | recycleAndDeliver packet => exact m.recycleAndDeliver_keepsTo packet
  | poolRecycle packet => exact (m.poolRecycle_aside packet).keepsTo

theorem applyCalls_keepsTo {calls : List PeerCall} (hs : ∀ c ∈ calls, c.Silent)
    (h : ∀ c ∈ calls, c.Addressed idx) (slot : UInt8) :
    KeepsTo r idx m (m.applyCalls r slot calls) := by
  rw [applyCalls]
  induction calls generalizing m with
  | nil => exact (Aside.refl m).keepsTo
  | cons call calls ih =>
    have hcall : KeepsTo r idx m (m.applyCall r slot call) :=
      applyCall_keepsTo (hs call List.mem_cons_self) (h call List.mem_cons_self) slot
    exact hcall.trans (ih (fun c hc => hs c (List.mem_cons_of_mem _ hc))
      (fun c hc => h c (List.mem_cons_of_mem _ hc)))

end Calls

section Receive

variable {m : NetManager} {r : PeerRef}

theorem createChannel_keepsTo (m : NetManager) (r : PeerRef) (idx : UInt8) :
    KeepsTo r idx m (m.setPeer r ((m.peerAt r).createChannel idx)) ∧
      (((m.peerAt r).createChannel idx).channels idx).isSome := by
  cases hch : (m.peerAt r).channels idx with
  | some channel =>
    rw [NetPeer.createChannel, hch]
    exact ⟨.frame rfl, by simp [hch]⟩
  | none =>
    rw [NetPeer.createChannel, hch]
    exact ⟨.setPeer (fun j hj => Function.update_of_ne hj _ _) (by simp [hch]),
      by simp⟩

theorem setChannel_keepsTo {idx : UInt8} (p : NetPeer) (channel : NetChannel)
    (h : ∀ j, j ≠ idx → p.channels j = (m.peerAt r).channels j) :
    KeepsTo r idx m (m.setPeer r { p with
      channels := Function.update p.channels idx (some channel) }) :=
  .setPeer (fun j hj => (Function.update_of_ne hj _ _).trans (h j hj)) (fun _ => by simp)

/-- A packet that passes the check of its channel id goes to the channel of that id. -/
theorem processChanneled_keepsTo (hm : Consistent m) (hr : r < m.peerCount) (packet : NetPacket) :
    KeepsTo r packet.channelId m (m.processChanneled r packet) := by
  have hrecycle : KeepsTo r packet.channelId m (m.poolRecycle packet) :=
    (m.poolRecycle_aside packet).keepsTo
  rw [processChanneled]
  dsimp only
  split
  · exact hrecycle
  · generalize hp : (if packet.property = .ack then m.peerAt r
      else (m.peerAt r).createChannel packet.channelId) = p
    have hsame : p.session.WellFormed ∧
        ∀ j, j ≠ packet.channelId → p.channels j = (m.peerAt r).channels j := by
      have hw := hm.wellFormed r hr
      have hcreate := (createChannel_keepsTo m r packet.channelId).1.others
      rw [setPeer_self] at hcreate
      rw [← hp]
      split
      · exact ⟨hw, fun _ _ => rfl⟩
      · exact ⟨(SameIdentity.createChannel _ _).wellFormed hw, hcreate⟩
    split
    · exact hrecycle
    · next channel hch =>
      have hcalls := NetChannel.processPacket_user (hsame.1.channels _ _ hch).1 packet
      have haddressed := @NetChannel.processPacket_addressed _ packet _
        (hsame.1.channels _ _ hch).2 rfl
      refine (setChannel_keepsTo p (channel.processPacket packet).1 hsame.2).trans ?_
      have happly : ∀ m', KeepsTo r packet.channelId m' (m'.applyCalls r packet.channelId
          (channel.processPacket packet).2.1) := fun m' =>
        applyCalls_keepsTo (fun c hc => (hcalls.2 c hc).1) haddressed.2 _
      refine (happly _).trans ?_
      split
      · exact (Aside.refl _).keepsTo
      · exact (poolRecycle_aside _ _).keepsTo

end Receive

section Send

variable {m : NetManager} {r : PeerRef}

theorem addToQueue_keepsTo (hm : Consistent m) (hr : r < m.peerCount) (idx : UInt8)
    {packet : NetPacket} (hp : UserPacket packet) :
    KeepsTo r idx m (m.addToQueue r idx packet) := by
  rw [addToQueue]
  dsimp only
  split
  · exact (Aside.refl m).keepsTo
  · next channel hch =>
    have hqueued := NetChannel.addToQueue_user ((hm.wellFormed r hr).channels _ _ hch).1 hp
    have hnone : ∀ c ∈ (channel.addToQueue packet).2, c.Addressed idx := by
      intro c hc
      have hc := hqueued.2 c hc
      cases c with
      | addReliablePacket | createReceiveEvent => exact absurd trivial hc.2
      | sendUserData packet => exact absurd rfl (hc.1 packet)
      | _ => trivial
    refine (setChannel_keepsTo (m.peerAt r) (channel.addToQueue packet).1 (fun _ _ => rfl)).trans ?_
    exact applyCalls_keepsTo (fun c hc => (hqueued.2 c hc).1) hnone _

theorem sendFragments_keepsTo (hm : Consistent m) (hr : r < m.peerCount) (idx : UInt8)
    (data : Bytes) (offset userData currentFragmentId packetDataSize totalPackets fuel partIdx
      size : ℕ) : KeepsTo r idx m (sendFragments r idx data offset userData currentFragmentId
        packetDataSize totalPackets fuel partIdx size m) := by
  induction fuel generalizing m partIdx size with
  | zero => exact (Aside.refl m).keepsTo
  | succ fuel ih =>
    rw [sendFragments]
    generalize (if packetDataSize < size then packetDataSize else size) = sendLength
    have hget := m.poolGetPacket_aside (channeledHeaderSize + sendLength + fragmentHeaderSize)
    have hsize := m.poolGetPacket_size (channeledHeaderSize + sendLength + fragmentHeaderSize)
    generalize m.poolGetPacket _ = got at hget hsize ⊢
    have hpos : 1 ≤ got.1.size := by
      rw [hsize, channeledHeaderSize]
      omega
    have huser := (fragmentHeader_user hpos userData currentFragmentId partIdx totalPackets).write
      (i := fragmentedHeaderTotalSize) (by decide)
      (readBytes data (offset + partIdx * packetDataSize) sendLength)
    have hadd : Changes .quiet m (got.2.addToQueue r idx _) := hget.changes.trans
      (addToQueue_changes (hget.consistent hm) (hr.trans_eq hget.peerCount.symm) idx huser)
    refine hget.keepsTo.trans ((addToQueue_keepsTo (hget.consistent hm)
      (hr.trans_eq hget.peerCount.symm) idx huser).trans ?_)
    exact ih (Changes.consistent hadd hm) (hr.trans_le hadd.evolves.count) _ _

/-- An accepted send goes to the channel of its index. -/
theorem sendInternal_keepsTo (hm : Consistent m) (hr : r < m.peerCount) (data : Bytes)
    (offset size : ℕ) {channelNumber : UInt8} {deliveryMethod : DeliveryMethod} (userData : ℕ)
    (hs : (m.peerAt r).connectionState = .connected)
    (hn : channelNumber.toNat < (m.peerAt r).channelCount) (hd : deliveryMethod ≠ .unreliable) :
    KeepsTo r (sendIndex channelNumber deliveryMethod) m
        (m.sendInternal r data offset size channelNumber deliveryMethod userData) ∧
      (((m.sendInternal r data offset size channelNumber deliveryMethod userData).peerAt
        r).channels (sendIndex channelNumber deliveryMethod)).isSome := by
  obtain ⟨hcreate, hsome⟩ := createChannel_keepsTo m r (sendIndex channelNumber deliveryMethod)
  have hm' : Consistent (m.setPeer r ((m.peerAt r).createChannel
      (sendIndex channelNumber deliveryMethod))) := hm.setPeer (.createChannel _ _)
  -- whatever follows keeps to the channel that was made
  have hrest : ∀ m', KeepsTo r (sendIndex channelNumber deliveryMethod) (m.setPeer r
      ((m.peerAt r).createChannel (sendIndex channelNumber deliveryMethod))) m' →
      KeepsTo r (sendIndex channelNumber deliveryMethod) m m' ∧
        ((m'.peerAt r).channels (sendIndex channelNumber deliveryMethod)).isSome :=
    fun m' h => ⟨hcreate.trans h, h.filled (by rwa [setPeer_self])⟩
  have hself := m.setPeer_self r ((m.peerAt r).createChannel
    (sendIndex channelNumber deliveryMethod))
  rw [sendInternal, if_neg (by rw [hs]; simpa using hn)]
  simp only [if_neg hd]
  change KeepsTo r (sendIndex channelNumber deliveryMethod) m _ ∧ _
  rw [sendIndex] at hrest hm' hself ⊢
  refine hrest _ ?_
  generalize (m.peerAt r).createChannel _ = p at hm' hself ⊢
  have herror : ∀ text, KeepsTo r (UInt8.ofNat (channelNumber.toNat * channelTypeCount +
      deliveryMethod.code)) (m.setPeer r p) ((m.setPeer r p).createErrorEvent 0 text) :=
    fun _ => .pushEvent (fun h => by cases h)
  split
  · split
    · exact herror _
    · generalize size / (p.mtu - PacketProperty.channeled.getHeaderSize - fragmentHeaderSize) +
        (if size % (p.mtu - PacketProperty.channeled.getHeaderSize - fragmentHeaderSize) = 0 then 0
          else 1) = totalPackets
      split
      · exact herror _
      · have hid : SameIdentity ((m.setPeer r p).peerAt r)
            { p with fragmentId := p.fragmentId + 1 } := .of_session (by rw [hself]; rfl)
        exact (KeepsTo.frame (p := { p with fragmentId := p.fragmentId + 1 })
          (by rw [hself])).trans (sendFragments_keepsTo (hm'.setPeer hid) hr _ _ _ _ _ _ _ _ _ _)
  · have hget := (m.setPeer r p).poolGetPacket_aside (PacketProperty.channeled.getHeaderSize + size)
    refine hget.keepsTo.trans (addToQueue_keepsTo (hget.consistent hm')
      (hr.trans_eq hget.peerCount.symm) _ (message_user (.inr rfl) ?_ userData data offset size))
    rw [poolGetPacket_size]
    exact Nat.le_add_right_of_le (getHeaderSize_pos (.inr rfl))

end Send

/-- What any remote peer reports of the data that the channel `idx` of the peer `r` sends. -/
def ReportedAs (m : NetManager) (r : PeerRef) (idx channelNumber : UInt8)
    (deliveryMethod : DeliveryMethod) : Prop :=
  ∀ channel ctx packet, (m.peerAt r).channels idx = some channel →
    .sendUserData packet ∈ (channel.sendAndCheckQueue ctx).2.1 → packet.property = .channeled →
    ∀ (m' : NetManager) r' received x, Consistent m' → r' < m'.peerCount →
      received.channelId = packet.channelId →
      m'.processChanneledChecked r' received = some x →
      ∃ es, x.events = m'.events ++ es ∧ ∀ e ∈ es, e.type = .receive →
        e.channelNumber = channelNumber ∧ e.deliveryMethod = deliveryMethod

/-- Where all accesses are inside, a packet goes to the channel of its id. -/
theorem processChanneledChecked_keepsTo {m x : NetManager} {r : PeerRef} (hm : Consistent m)
    (hr : r < m.peerCount) {packet : NetPacket} (h : m.processChanneledChecked r packet = some x) :
    KeepsTo r packet.channelId m x := by
  by_cases heq : packet.channelId.toNat = (m.peerAt r).channelCount
  · rw [processChanneledChecked_none heq] at h
    cases h
  · rw [processChanneledChecked_eq heq, Option.some.injEq] at h
    exact h ▸ processChanneled_keepsTo hm hr packet

theorem reportedAs_of_index {m : NetManager} (hm : Consistent m) {r : PeerRef}
    (hr : r < m.peerCount) {idx channelNumber : UInt8} {deliveryMethod : DeliveryMethod}
    (hn : idx.toNat / channelTypeCount = channelNumber.toNat)
    (hd : idx.toNat % channelTypeCount = deliveryMethod.code) :
    ReportedAs m r idx channelNumber deliveryMethod := by
  intro channel ctx packet hch hsent hp m' r' received x hm' hr' hid hx
  obtain ⟨-, hcalls⟩ := NetChannel.sendAndCheckQueue_addressed
    ((hm.wellFormed r hr).channels idx channel hch).2 ctx
  have hpacket : packet.channelId = idx := by
    refine (hcalls _ hsent).resolve_left (fun ha => ?_)
    rw [hp] at ha
    cases ha
  obtain ⟨es, he, hes⟩ := (processChanneledChecked_keepsTo hm' hr' hx).events
  refine ⟨es, he, fun e hm ht => ?_⟩
  obtain ⟨hmethod, hnumber⟩ := hes e hm ht
  rw [hid, hpacket] at hmethod hnumber
  refine ⟨?_, deliveryMethod_code_injective (hmethod.trans hd)⟩
  rw [hnumber, hn, UInt8.ofNat_toNat]

/-- The call that left the manager in `sent` used a channel that no other number and method share,
and whose packets are reported with the number and the method of the call. -/
structure SendAddressed (r : PeerRef) (channelNumber : UInt8) (deliveryMethod : DeliveryMethod)
    (sent : NetManager) : Prop where
  number : (sendIndex channelNumber deliveryMethod).toNat / channelTypeCount = channelNumber.toNat
  method : (sendIndex channelNumber deliveryMethod).toNat % channelTypeCount = deliveryMethod.code
  reported : ∀ later, ReflTransGen Step sent later →
    ReportedAs later r (sendIndex channelNumber deliveryMethod) channelNumber deliveryMethod

/-- A peer made for a number of channels sends inside them, and to the right one, below that number
and below 64, and reads past them exactly for the packet whose id is their count. -/
theorem channels_addressed {m : NetManager} (h : Reachable Initial Step m) {r : PeerRef}
    (hr : r < m.peerCount) :
    ∃ channelsCount, (m.peerAt r).channelCount = channelsCount * channelTypeCount ∧
      (∀ data offset size channelNumber deliveryMethod userData,
        (m.peerAt r).connectionState = .connected →
        channelNumber.toNat < (m.peerAt r).channelCount → deliveryMethod ≠ .unreliable →
        (∀ sent, m.sendInternalChecked r data offset size channelNumber deliveryMethod userData =
            some sent → KeepsTo r (sendIndex channelNumber deliveryMethod) m sent) ∧
          ((∃ sent, m.sendInternalChecked r data offset size channelNumber deliveryMethod
              userData = some sent ∧ SendAddressed r channelNumber deliveryMethod sent) ↔
            channelNumber.toNat < channelsCount ∧ channelNumber.toNat < 64)) ∧
      ∀ packet : NetPacket,
        ((m.peerAt r).channelCount < packet.channelId.toNat →
          m.processChanneledChecked r packet = some (m.poolRecycle packet)) ∧
        (∀ x, m.processChanneledChecked r packet = some x → KeepsTo r packet.channelId m x) ∧
        ((m.processChanneledChecked r packet).isSome = true ↔
          packet.channelId.toNat ≠ (m.peerAt r).channelCount) := by
  have hm := consistent_of_reachable h
  obtain ⟨channelsCount, hcount⟩ := (hm.wellFormed r hr).channelCount
  have hcount : (m.peerAt r).channelCount = channelsCount * channelTypeCount :=
    hcount.trans (Nat.mul_comm _ _)
  refine ⟨channelsCount, hcount, ?_, fun packet => ⟨fun hlt => ?_, fun x hx => ?_, ?_⟩⟩
  · intro data offset size channelNumber deliveryMethod userData hs hn hd
    have hindex := sendIndex_iff channelNumber hd channelsCount
    rw [sendInternalChecked_eq hs hn hd, ← hindex, ← hcount]
    constructor
    · intro sent hsent
      split at hsent
      · cases hsent
        exact (sendInternal_keepsTo hm hr data offset size userData hs hn hd).1
      · cases hsent
    constructor
    · rintro ⟨sent, hsent, haddressed⟩
      split at hsent
      · next hlt => exact ⟨hlt, haddressed.number, haddressed.method⟩
      · cases hsent
    · rintro ⟨hlt, hnumber, hmethod⟩
      refine ⟨_, if_pos hlt, hnumber, hmethod, fun later hrun => ?_⟩
      have hsent := sendInternal_changes (S := fullScope) hm hr data offset size channelNumber
        deliveryMethod userData
      have hlater := consistent_of_run hrun (Changes.consistent hsent hm)
      exact reportedAs_of_index hlater.1
        (hr.trans_le ((Changes.evolves hsent).count.trans hlater.2)) hnumber hmethod
  · rw [processChanneledChecked]
    exact if_pos hlt
  · exact processChanneledChecked_keepsTo hm hr hx
  · constructor
    · intro hsome heq
      rw [processChanneledChecked_none heq] at hsome
      cases hsome
    · intro hne
      rw [processChanneledChecked_eq hne]
      rfl

theorem channels_addressed_connectedClient :
    ∃ channelsCount, (connectedClient.peerAt 0).channelCount = channelsCount * channelTypeCount ∧
      (∀ data offset size channelNumber deliveryMethod userData,
        (connectedClient.peerAt 0).connectionState = .connected →
        channelNumber.toNat < (connectedClient.peerAt 0).channelCount →
        deliveryMethod ≠ .unreliable →
        (∀ sent, connectedClient.sendInternalChecked 0 data offset size channelNumber
            deliveryMethod userData = some sent →
              KeepsTo 0 (sendIndex channelNumber deliveryMethod) connectedClient sent) ∧
          ((∃ sent, connectedClient.sendInternalChecked 0 data offset size channelNumber
              deliveryMethod userData = some sent ∧
                SendAddressed 0 channelNumber deliveryMethod sent) ↔
            channelNumber.toNat < channelsCount ∧ channelNumber.toNat < 64)) ∧
      ∀ packet : NetPacket,
        ((connectedClient.peerAt 0).channelCount < packet.channelId.toNat →
          connectedClient.processChanneledChecked 0 packet =
            some (connectedClient.poolRecycle packet)) ∧
        (∀ x, connectedClient.processChanneledChecked 0 packet = some x →
          KeepsTo 0 packet.channelId connectedClient x) ∧
        ((connectedClient.processChanneledChecked 0 packet).isSome = true ↔
          packet.channelId.toNat ≠ (connectedClient.peerAt 0).channelCount) :=
  channels_addressed connectedClient_reachable (by decide +kernel)

/-- With one channel the number 1 passes the check of `send_internal`, and the channel id 4 that of
`process_packet`; both are past the four channels there are. -/
theorem not_always_inBounds :
    ¬ ((∀ (m : NetManager) (r : PeerRef) (data : Bytes) (offset size : ℕ) (channelNumber : UInt8)
          (deliveryMethod : DeliveryMethod) (userData : ℕ), Reachable Initial Step m →
          r < m.peerCount → (m.peerAt r).connectionState = .connected →
          channelNumber.toNat < (m.peerAt r).channelCount → deliveryMethod ≠ .unreliable →
          (m.sendInternalChecked r data offset size channelNumber deliveryMethod
            userData).isSome = true) ∨
        ∀ (m : NetManager) (r : PeerRef) (packet : NetPacket),
          Reachable Initial Step m → r < m.peerCount → packet.property = .channeled →
          (m.processChanneledChecked r packet).isSome = true) := by
  have hcount : (connectedClient.peerAt 0).channelCount = 4 := by decide +kernel
  rintro (h | h)
  · have hconnected : (connectedClient.peerAt 0).connectionState = .connected := by decide +kernel
    have hsend := h connectedClient 0 [] 0 0 1 .reliableOrdered 0 connectedClient_reachable
      (by decide +kernel) hconnected (by rw [hcount]; decide) (by decide)
    rw [sendInternalChecked_eq hconnected (by rw [hcount]; decide) (by decide), hcount,
      if_neg (by decide)] at hsend
    cases hsend
  · have hreceive := h connectedClient 0 ((NetPacket.new .channeled 1 (by decide)).setChannelId 4)
      connectedClient_reachable (by decide +kernel) (by decide +kernel)
    rw [processChanneledChecked_none (by rw [hcount]; decide +kernel)] at hreceive
    cases hreceive

end NetManager

end LiteNet.Manager
