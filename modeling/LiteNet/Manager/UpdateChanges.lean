import LiteNet.Manager.ReceiveChanges

/-! # Time and sending by the application as sequences of changes -/

namespace LiteNet.Manager
open Library Wire Channels Relation

theorem Changes.waited {S : Scope} {m : NetManager} {r : PeerRef} (elapses : S.elapses r)
    (time : ℤ) : Changes S m (m.setPeer r { m.peerAt r with timeSinceLastPacket := time }) :=
  .single (.touch r (.clock _ time) rfl rfl (fun _ he => absurd elapses he))

namespace NetManager

section Update

variable {S : Scope} {m : NetManager} {r : PeerRef} {n : UInt8}

theorem applyCalls_send_changes (hS : S.Serving n) (h : Serves m r n)
    (hs : (m.peerAt r).connectionState ≠ .outgoing) {calls : List PeerCall}
    (hc : ∀ c ∈ calls, c.Sends) (idx : UInt8) : Changes S m (m.applyCalls r idx calls) := by
  rw [applyCalls]
  induction calls generalizing m with
  | nil => exact .refl
  | cons call calls ih =>
    have hcall : Changes S m (m.applyCall r idx call) := by
      have hsend := hc call List.mem_cons_self
      cases call with
      | sendUserData packet => exact sendUserData_changes hS h hs hsend
      | poolRecycle packet => exact (m.poolRecycle_aside packet).changes
      | _ => exact hsend.elim
    exact hcall.trans (ih (h.changes hS.accepts hcall) (hcall.not_outgoing h.lt hs)
      (fun c hm => hc c (List.mem_cons_of_mem _ hm)))

private theorem le_nextMtu {i : ℕ} (h : ¬ possibleMtu.length - 1 ≤ i) :
    508 ≤ possibleMtu.getD (i + 1) 0 := by
  have hi : i < 6 := not_le.mp h
  interval_cases i <;> decide

theorem sendMtuCheck_changes (hS : S.Serving n) (hm : Consistent m) {newMtu : ℕ}
    (h : 508 ≤ newMtu) (endpoint : NetAddress) :
    Changes S m (m.sendMtuCheck newMtu endpoint).1 := by
  have hsize := m.poolGetPacket_size newMtu
  have hcheck := NetPacket.setProperty_unstamped (poolGetPacket_byte hm newMtu)
    (by rw [hsize]; omega) .mtuCheck
  rw [sendMtuCheck]
  refine (m.poolGetPacket_aside newMtu).changes.trans ?_
  generalize m.poolGetPacket newMtu = got at hsize hcheck ⊢
  refine sendRawAndRecycle_changes hS.closes _ _ _ (hS.emits _ _ ?_)
  refine sessionDatagram_of_unstamped ((hcheck.setValueAt newMtu one_pos 4).setValueAt newMtu ?_ 4)
    rfl (.inr (.inr (.inr rfl)))
  change 0 < got.1.size - 4
  omega

theorem updateMtuLogic_changes (hS : S.Serving n) (h : Serves m r n) (deltaTime : ℤ) :
    Changes S m (m.updateMtuLogic r deltaTime) := by
  rw [updateMtuLogic]
  dsimp only
  split
  · exact .refl
  · split
    · exact Changes.aside rfl
    · split
      · exact Changes.aside rfl
      · split
        · exact Changes.aside rfl
        · next hidx =>
          have htouch : Changes S m (m.setPeer r { m.peerAt r with
              mtuCheckTimer := 0
              mtuCheckAttempts := (m.peerAt r).mtuCheckAttempts + 1 }) := Changes.aside rfl
          have hsent := htouch.trans (sendMtuCheck_changes hS (htouch.consistent h.consistent)
            (le_nextMtu hidx) (m.peerAt r).endpoint)
          generalize sendMtuCheck _ (possibleMtu.getD ((m.peerAt r).mtuIdx + 1) 0)
            (m.peerAt r).endpoint = sent at hsent ⊢
          split
          · exact hsent.trans (Changes.aside rfl)
          · exact hsent

theorem updatePing_changes (hS : S.Serving n) (h : Serves m r n) (deltaTime : ℤ) :
    Changes S m (m.updatePing r deltaTime) := by
  have hw := h.consistent.wellFormed r h.lt
  rw [updatePing]
  dsimp only
  split
  · have hping := hw.ping.setSequence (((m.peerAt r).pingPacket.sequence + 1) % 65536)
    have hemit : ∀ p : NetPeer, p.pingPacket = (m.peerAt r).pingPacket.setSequence
        (((m.peerAt r).pingPacket.sequence + 1) % 65536) → S.emits
          (m.highResolutionNow.2.setPeer r p) ⟨p.endpoint, p.pingPacket.wire⟩ := fun p hp =>
      hS.emits _ _ (sessionDatagram_of_unstamped hping (by rw [hp]; rfl) (.inl rfl))
    split
    · refine ReflTransGen.trans ?_ (sendRaw_changes hS.closes _ _ _ (hemit _ rfl))
      exact m.highResolutionNow_aside.changes.trans
        (Changes.touch ⟨rfl, rfl, rfl, rfl, fun _ => { hw with ping := hping }⟩ rfl
          rfl rfl)
    · refine ReflTransGen.trans ?_ (sendRaw_changes hS.closes _ _ _ (hemit _ rfl))
      exact m.highResolutionNow_aside.changes.trans
        (Changes.touch ⟨rfl, rfl, rfl, rfl, fun _ => { hw with ping := hping }⟩ rfl
          rfl rfl)
  · exact Changes.aside rfl

theorem updateRtt_changes (S : Scope) (m : NetManager) (r : PeerRef) (deltaTime : ℤ) :
    Changes S m (m.updateRtt r deltaTime) := by
  rw [updateRtt]
  dsimp only
  split <;> exact Changes.aside rfl

theorem updateChannels_changes (hS : S.Serving n) (h : Serves m r n)
    (hs : (m.peerAt r).connectionState ≠ .outgoing) (count : ℕ) :
    Changes S m (updateChannels r count m) := by
  induction count generalizing m with
  | zero => exact .refl
  | succ count ih =>
    rw [updateChannels]
    dsimp only
    split
    · exact .refl
    · next idx queue hq =>
      split
      · exact Changes.aside rfl
      · next channel hch =>
        have hw := h.consistent.wellFormed r h.lt
        have huser := fun ctx => NetChannel.sendAndCheckQueue_user (hw.channels _ _ hch).1 ctx
        have hidx := fun ctx => NetChannel.sendAndCheckQueue_addressed (hw.channels _ _ hch).2 ctx
        have htouch : ∀ ctx, Changes S m (m.getCurrentTime.2.setPeer r { m.peerAt r with
            channelSendQueue := queue
            channels := Function.update (m.peerAt r).channels idx
              (some (channel.sendAndCheckQueue ctx).1) }) := fun ctx =>
          m.getCurrentTime_aside.changes.trans (Changes.touch
            ⟨rfl, rfl, rfl, rfl,
              fun hw => hw.setChannel idx (huser ctx).1 (hidx ctx).1⟩ rfl rfl rfl)
        have hcalls := fun ctx => (htouch ctx).trans (applyCalls_send_changes hS
          (h.changes hS.accepts (htouch ctx)) ((htouch ctx).not_outgoing h.lt hs)
          (huser ctx).2 idx)
        have hloop : ∀ m', Changes S m m' → Changes S m (updateChannels r count m') :=
          fun m' hc => hc.trans (ih (h.changes hS.accepts hc) (hc.not_outgoing h.lt hs))
        split
        · exact hloop _ ((hcalls _).trans (Changes.aside rfl))
        · exact hloop _ (hcalls _)

theorem updateUnreliable_changes (hS : S.Serving n) (h : Serves m r n)
    (hs : (m.peerAt r).connectionState ≠ .outgoing) : Changes S m (m.updateUnreliable r) := by
  have hw := h.consistent.wellFormed r h.lt
  have htouch : Changes S m (m.setPeer r { m.peerAt r with unreliableChannel := [] }) :=
    Changes.touch ⟨rfl, rfl, rfl, rfl, fun hw => { hw with unreliable := nofun }⟩
      rfl rfl rfl
  rw [updateUnreliable]
  refine htouch.trans ?_
  replace hs := htouch.not_outgoing h.lt hs
  replace h := h.changes hS.accepts htouch
  have hqueue : ∀ packet ∈ (m.peerAt r).unreliableChannel, UserPacket packet := hw.unreliable
  generalize (m.peerAt r).unreliableChannel = queue at hqueue ⊢
  generalize m.setPeer r { m.peerAt r with unreliableChannel := [] } = m' at h hs ⊢
  induction queue generalizing m' with
  | nil => exact .refl
  | cons packet queue ih =>
    have hsend : Changes S m' ((m'.sendUserData r packet).poolRecycle packet) :=
      (sendUserData_changes hS h hs (hqueue packet List.mem_cons_self)).trans
        (poolRecycle_aside _ packet).changes
    exact hsend.trans (ih (fun p hp => hqueue p (List.mem_cons_of_mem _ hp)) _
      (h.changes hS.accepts hsend) (hsend.not_outgoing h.lt hs))

theorem updateConnected_changes (hS : S.Serving n) (h : Serves m r n)
    (hs : (m.peerAt r).connectionState ≠ .outgoing) (deltaTime : ℤ) :
    Changes S m (m.updateConnected r deltaTime) := by
  have hnext : ∀ {m' m'' : NetManager}, Changes S m m' →
      (Serves m' r n → (m'.peerAt r).connectionState ≠ .outgoing → Changes S m' m'') →
      Changes S m m'' := fun hc hf =>
    hc.trans (hf (h.changes hS.accepts hc) (hc.not_outgoing h.lt hs))
  have hping := updatePing_changes hS h deltaTime
  have hrtt := hping.trans (updateRtt_changes S _ r deltaTime)
  have hmtu := hnext hrtt (fun h _ => updateMtuLogic_changes hS h deltaTime)
  have hchannels := hnext hmtu (fun h hs => updateChannels_changes hS h hs
    ((((m.updatePing r deltaTime).updateRtt r deltaTime).updateMtuLogic r
      deltaTime).peerAt r).channelSendQueue.length)
  have hunreliable := hnext hchannels (fun h hs => updateUnreliable_changes hS h hs)
  exact hnext hunreliable (fun h _ => sendMerged_changes hS h)

theorem sessionDatagram_of_property {packet : NetPacket} (hs : 1 ≤ packet.size)
    (h : packet.property = .disconnect ∨ packet.property = .connectRequest)
    (endpoint : NetAddress) : SessionDatagram n ⟨endpoint, packet.wire⟩ := by
  rw [SessionDatagram, NetPacket.headerProperty_wire packet hs]
  rcases h with h | h <;> rw [h] <;> trivial

theorem updateShutdown_changes (hS : S.Serving n) (h : Serves m r n)
    (hs : (m.peerAt r).connectionState = .shutdownRequested) (deltaTime : ℤ) :
    Changes S m (m.updateShutdown r deltaTime) := by
  have hw := (h.consistent.wellFormed r h.lt).shutdown
  rw [updateShutdown]
  dsimp only
  split
  · exact .single (.finish r hS.closes hs)
  · split
    · refine ReflTransGen.trans (Changes.aside ?_) (sendRaw_changes hS.closes _ _ _
        (hS.emits _ _ (sessionDatagram_of_property hw.2 (.inl hw.1) _)))
      rfl
    · exact Changes.aside rfl

theorem updateOutgoing_changes (hS : S.Serving n) (h : Serves m r n) (deltaTime : ℤ) :
    Changes S m (m.updateOutgoing r deltaTime) := by
  have hw := (h.consistent.wellFormed r h.lt).request
  rw [updateOutgoing]
  dsimp only
  split
  · split
    · refine ReflTransGen.trans (Changes.aside ?_) (disconnectPeerForce_changes hS.closes _ _ _ _ _)
      rfl
    · split
      · exact Changes.aside rfl
      · next packet hp =>
        have hr := hw packet hp
        refine ReflTransGen.trans (Changes.aside ?_) (sendRaw_changes hS.closes _ _ _
          (hS.emits _ _ (sessionDatagram_of_property hr.2 (.inr hr.1) _)))
        rfl
  · exact Changes.aside rfl

/-- An update of a peer is a sequence of changes of its session. -/
theorem update_changes (hS : S.Serving n) (h : Serves m r n) (he : S.elapses r)
    (deltaTime : ℤ) : Changes S m (m.update r deltaTime) := by
  have htouch : ∀ T : Scope, T.elapses r → Changes T m (m.setPeer r { m.peerAt r with
      timeSinceLastPacket := wrapInt32 ((m.peerAt r).timeSinceLastPacket + deltaTime) }) :=
    fun T ht => Changes.waited ht _
  have hserves := h.changes hS.accepts (htouch S he)
  have hstate := (htouch .quiet trivial).quiet_state h.lt
  rw [update]
  refine (htouch S he).trans ?_
  dsimp only
  split
  · next hs =>
    split
    · exact disconnectPeerForce_changes hS.closes _ _ _ _ _
    · exact updateConnected_changes hS hserves (by rw [hstate, hs]; decide) deltaTime
  · next hs => exact updateShutdown_changes hS hserves (hstate.trans hs) deltaTime
  · exact updateOutgoing_changes hS hserves deltaTime
  · exact .refl

end Update

section Send

variable {S : Scope} {m : NetManager} {r : PeerRef}

theorem addToQueue_changes (hm : Consistent m) (hr : r < m.peerCount) (idx : UInt8)
    {packet : NetPacket} (hp : UserPacket packet) : Changes S m (m.addToQueue r idx packet) := by
  rw [addToQueue]
  dsimp only
  split
  · exact .refl
  · next channel hch =>
    have hch := (hm.wellFormed r hr).channels _ _ hch
    have huser := NetChannel.addToQueue_user hch.1 hp
    refine ReflTransGen.trans ?_ (applyCalls_changes (fun c hc => (huser.2 c hc).1)
      (fun ⟨c, hc, hd⟩ => absurd hd (huser.2 c hc).2) idx)
    exact Changes.touch ⟨rfl, rfl, rfl, rfl, fun hw => hw.setChannel idx huser.1
      (NetChannel.addToQueue_addressed hch.2 packet)⟩ rfl rfl rfl

theorem fragmentHeader_user {packet : NetPacket} (h : 1 ≤ packet.size)
    (userData fragmentId fragmentPart totalFragments : ℕ) :
    UserPacket (fragmentHeader packet userData fragmentId fragmentPart totalFragments) := by
  have hstart : UserPacket { packet.setProperty .channeled with userData := userData } :=
    ⟨.inr (.inl (NetPacket.property_setProperty _ _)), h⟩
  have hid := hstart.write (i := 4) (by decide) (leBytes 2 fragmentId)
  have hpart := hid.write (i := 6) (by decide) (leBytes 2 fragmentPart)
  have htotal := hpart.write (i := 8) (by decide) (leBytes 2 totalFragments)
  exact htotal.markFragmented

theorem sendFragments_changes (hm : Consistent m) (hr : r < m.peerCount) (idx : UInt8)
    (data : Bytes) (offset userData currentFragmentId packetDataSize totalPackets fuel partIdx
      size : ℕ) : Changes S m (sendFragments r idx data offset userData currentFragmentId
        packetDataSize totalPackets fuel partIdx size m) := by
  induction fuel generalizing m partIdx size with
  | zero => exact .refl
  | succ fuel ih =>
    rw [sendFragments]
    generalize (if packetDataSize < size then packetDataSize else size) = sendLength
    have hget := (m.poolGetPacket_aside
      (channeledHeaderSize + sendLength + fragmentHeaderSize)).changes (S := S)
    have hsize := m.poolGetPacket_size (channeledHeaderSize + sendLength + fragmentHeaderSize)
    generalize m.poolGetPacket _ = got at hget hsize ⊢
    have hpos : 1 ≤ got.1.size := by
      rw [hsize, channeledHeaderSize]
      omega
    have hadd : ∀ {packet}, UserPacket packet → Changes S m (got.2.addToQueue r idx packet) :=
      fun hp => hget.trans (addToQueue_changes (hget.consistent hm)
        (hr.trans_le hget.evolves.count) idx hp)
    have huser := (fragmentHeader_user hpos userData currentFragmentId partIdx totalPackets).write
      (i := fragmentedHeaderTotalSize) (by decide)
      (readBytes data (offset + partIdx * packetDataSize) sendLength)
    exact (hadd huser).trans (ih ((hadd huser).consistent hm)
      (hr.trans_le (hadd huser).evolves.count) _ _)

theorem getHeaderSize_pos {property : PacketProperty}
    (h : property = .unreliable ∨ property = .channeled) : 1 ≤ property.getHeaderSize := by
  rcases h with rfl | rfl <;> decide

theorem message_user {packet : NetPacket} {property : PacketProperty}
    (h : property = .unreliable ∨ property = .channeled) (hs : 1 ≤ packet.size) (userData : ℕ)
    (data : Bytes) (offset size : ℕ) :
    UserPacket (({ packet.setProperty property with userData := userData : NetPacket }).copyFrom data
      offset property.getHeaderSize size) := by
  have hprop : ({ packet.setProperty property with userData := userData :
      NetPacket }).property = property := NetPacket.property_setProperty _ _
  refine UserPacket.write ⟨?_, ?_⟩ (getHeaderSize_pos h) _
  · rw [hprop]
    exact h.imp_right .inl
  · exact hs

theorem createErrorEvent_changes (m : NetManager) (socketErrorCode : ℕ) (errorMessage : String) :
    Changes S m (m.createErrorEvent socketErrorCode errorMessage) :=
  Changes.createEvent (networkError_about rfl) ⟨rfl, rfl⟩

theorem sendInternal_changes (hm : Consistent m) (hr : r < m.peerCount) (data : Bytes)
    (offset size : ℕ) (channelNumber : UInt8) (deliveryMethod : DeliveryMethod) (userData : ℕ) :
    Changes S m (m.sendInternal r data offset size channelNumber deliveryMethod userData) := by
  rw [sendInternal]
  dsimp only
  split
  · exact .refl
  · generalize hp : (if deliveryMethod = .unreliable then m.peerAt r
      else (m.peerAt r).createChannel _) = p
    generalize hproperty : (if deliveryMethod = .unreliable then PacketProperty.unreliable
      else .channeled) = property
    have hsame : SameIdentity (m.peerAt r) p ∧
        p.connectionState = (m.peerAt r).connectionState ∧
        p.connectNumber = (m.peerAt r).connectNumber ∧
        p.timeSinceLastPacket = (m.peerAt r).timeSinceLastPacket := by
      rw [← hp]
      split
      · exact ⟨.refl _, rfl, rfl, rfl⟩
      · exact ⟨.createChannel _ _, by simp, by simp, by simp⟩
    have htouch : Changes S m (m.setPeer r p) :=
      Changes.touch hsame.1 hsame.2.1 hsame.2.2.1 hsame.2.2.2
    have hm' := htouch.consistent hm
    have hself : (m.setPeer r p).peerAt r = p := m.setPeer_self r p
    refine htouch.trans ?_
    split
    · split
      · exact createErrorEvent_changes _ _ _
      · generalize size / (p.mtu - property.getHeaderSize - fragmentHeaderSize) +
          (if size % (p.mtu - property.getHeaderSize - fragmentHeaderSize) = 0 then 0 else 1) =
            totalPackets
        split
        · exact createErrorEvent_changes _ _ _
        · have hid : Changes S (m.setPeer r p) ((m.setPeer r p).setPeer r { p with
              fragmentId := p.fragmentId + 1 }) := Changes.aside (by rw [hself]; rfl)
          exact hid.trans (sendFragments_changes (hid.consistent hm') hr _ _ _ _ _ _ _ _ _ _)
    · have hget := ((m.setPeer r p).poolGetPacket_aside (property.getHeaderSize + size)).changes
        (S := S)
      have hsize := (m.setPeer r p).poolGetPacket_size (property.getHeaderSize + size)
      have hpeer := ((m.setPeer r p).poolGetPacket_aside (property.getHeaderSize + size)).peerAt
      generalize (m.setPeer r p).poolGetPacket _ = got at hget hsize hpeer ⊢
      have hkind : property = .unreliable ∨ property = .channeled := by
        rw [← hproperty]
        split <;> decide
      have huser := message_user hkind (hsize ▸ Nat.le_add_right_of_le (getHeaderSize_pos hkind))
        userData data offset size
      split
      · have hunreliable : SameIdentity p { p with
            unreliableChannel := p.unreliableChannel ++ [({ got.1.setProperty property with
              userData := userData : NetPacket }).copyFrom data offset property.getHeaderSize size] } :=
          ⟨rfl, rfl, rfl, rfl, fun hw => { hw with
            unreliable := fun q hq => (List.mem_append.mp hq).elim (hw.unreliable q)
              (fun hq => List.mem_singleton.mp hq ▸ huser) }⟩
        have hgot : got.2.peerAt r = p := by rw [hpeer, hself]
        exact hget.trans (Changes.touch (hgot.symm ▸ hunreliable) (hgot.symm ▸ rfl)
          (hgot.symm ▸ rfl) (hgot.symm ▸ rfl))
      · exact hget.trans (addToQueue_changes (hget.consistent hm')
          (hr.trans_le hget.evolves.count) _ huser)

end Send

end NetManager

end LiteNet.Manager
