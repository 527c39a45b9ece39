import LiteNet.Manager.Change
import LiteNet.Manager.Update

/-! # Sending as a sequence of changes

`send_raw` with what it does about an unreachable host, and the merging of user
packets.
-/

namespace LiteNet.Manager
open Library Wire Channels Relation

section Pool

variable (m : NetManager)

namespace NetManager

theorem poolRecycle_aside (packet : NetPacket) : Aside m (m.poolRecycle packet) := by
  rw [poolRecycle]
  split
  · exact .refl m
  · next hkept =>
    refine ⟨⟨rfl, rfl, rfl, rfl, fun p hp => ?_, rfl⟩, rfl⟩
    refine (List.mem_cons.mp hp).symm.imp_right (fun he => ?_)
    rw [he]
    exact ⟨packet.byte_clear, packet.bufferSize_clear.trans_le
      (not_lt.mp fun hlarge => hkept (.inl hlarge))⟩

theorem poolRecycleOption_aside (packet : Option NetPacket) :
    Aside m (m.poolRecycleOption packet) := by
  cases packet with
  | none => exact .refl m
  | some packet => exact m.poolRecycle_aside packet

theorem poolGetPacket_aside (size : ℕ) : Aside m (m.poolGetPacket size).2 := by
  rw [poolGetPacket]
  split
  · exact .refl m
  · next pool hp =>
    exact ⟨⟨rfl, rfl, rfl, rfl, fun p h => .inl (hp ▸ List.mem_cons_of_mem _ h),
      rfl⟩, rfl⟩

theorem getCurrentTime_aside : Aside m m.getCurrentTime.2 :=
  ⟨⟨rfl, rfl, rfl, rfl, fun _ => .inl, rfl⟩, rfl⟩

theorem highResolutionNow_aside : Aside m m.highResolutionNow.2 :=
  ⟨⟨rfl, rfl, rfl, rfl, fun _ => .inl, rfl⟩, rfl⟩

theorem nextSendResult_aside : Aside m m.nextSendResult.2 :=
  ⟨⟨rfl, rfl, rfl, rfl, fun _ => .inl, rfl⟩, rfl⟩

@[simp] theorem poolGetPacket_size (size : ℕ) : (m.poolGetPacket size).1.size = size := by
  rw [poolGetPacket]
  split <;> rfl

variable {m}

theorem poolGetPacket_byte (hm : Consistent m) (size : ℕ) :
    (m.poolGetPacket size).1.byte 0 = 0 := by
  rw [poolGetPacket]
  split
  · rw [NetPacket.byte_resize _ _ (NetPacket.bufferSize_pos _), NetPacket.empty,
      NetPacket.byte_alloc]
  · next packet pool hp =>
    rw [NetPacket.byte_resize _ _ packet.bufferSize_pos]
    exact (hm.pool packet (hp ▸ List.mem_cons_self)).zero 0

theorem poolGetWithProperty_unstamped (hm : Consistent m) (property : PacketProperty) (size : ℕ)
    (h : 1 ≤ property.getHeaderSize + size) :
    (m.poolGetWithProperty property size).1.Unstamped property :=
  NetPacket.setProperty_unstamped (poolGetPacket_byte hm _) (by simpa using h) property

end NetManager

end Pool

section Changes

variable {S : Scope} {m m' : NetManager} {r : PeerRef} {p : NetPeer}

theorem Aside.changes (h : Aside m m') : Changes S m m' := .single (.aside h)

/-- The event that is made of arguments. -/
def NetEvent.made (args : NetEvent) : NetEvent :=
  match args.reader, args.readerSource with
  | none, some packet =>
    { args with reader := some ⟨packet.data, packet.size, packet.getHeaderSize⟩ }
  | _, _ => args

theorem NetManager.createEvent_made (m : NetManager) (args : NetEvent) :
    m.createEvent args = m.pushEvent args.made := rfl

theorem NetEvent.made_type (args : NetEvent) : args.made.type = args.type := by
  rw [made]
  split <;> rfl

theorem NetEvent.made_peer (args : NetEvent) : args.made.peer = args.peer := by
  rw [made]
  split <;> rfl

theorem NetManager.createEvent_eq (m : NetManager) (args : NetEvent) :
    ∃ e : NetEvent, e.type = args.type ∧ e.peer = args.peer ∧ e.userData = args.userData ∧
      m.createEvent args = m.pushEvent e := by
  refine ⟨_, ?_, ?_, ?_, rfl⟩
  · split <;> rfl
  · split <;> rfl
  · split <;> rfl

theorem Changes.createEvent {args : NetEvent} (h : ∀ r, ¬ args.About r)
    (plain : args.made.Filled) : Changes S m (m.createEvent args) := by
  refine .single (.note _ (fun r ha => h r ⟨?_, ?_⟩) plain)
  · exact args.made_peer ▸ ha.1
  · exact args.made_type ▸ ha.2

theorem Changes.touch (same : SameIdentity (m.peerAt r) p)
    (state : p.connectionState = (m.peerAt r).connectionState)
    (number : p.connectNumber = (m.peerAt r).connectNumber)
    (time : p.timeSinceLastPacket = (m.peerAt r).timeSinceLastPacket) :
    Changes S m (m.setPeer r p) :=
  .single (.touch r same state number (fun _ _ => time))

theorem SameIdentity.of_session {p p' : NetPeer} (h : p'.session = p.session) :
    SameIdentity p p' where
  id := congrArg Session.id h
  endpoint := congrArg Session.endpoint h
  connectTime := congrArg Session.connectTime h
  connectAcceptPacket := congrArg Session.connectAcceptPacket h
  wellFormed := fun hw => h ▸ hw

theorem Changes.aside (h : p.session = (m.peerAt r).session) : Changes S m (m.setPeer r p) :=
  .touch (.of_session h) (congrArg Session.connectionState h) (congrArg Session.connectNumber h)
    (congrArg Session.timeSinceLastPacket h)

/-- A scope in which the peers stay connected as they are and may send what sessions send. -/
structure Scope.Serving (S : Scope) (n : UInt8) : Prop where
  closes : S.closes
  accepts : ∀ t n, ¬ S.accepts t n
  emits : ∀ m d, SessionDatagram n d → S.emits m d

/-- The peer `r` uses the number `n`. -/
structure Serves (m : NetManager) (r : PeerRef) (n : UInt8) : Prop where
  consistent : Consistent m
  lt : r < m.peerCount
  number : (m.peerAt r).connectNumber = n

theorem Serves.changes {n : UInt8} (h : Serves m r n) (ha : ∀ t n, ¬ S.accepts t n)
    (hc : Changes S m m') : Serves m' r n where
  consistent := hc.consistent h.consistent
  lt := h.lt.trans_le hc.evolves.count
  number := ((hc.evolves.peer r h.lt).number (.inr ha)).trans h.number

theorem Changes.not_outgoing (hc : Changes S m m') (hr : r < m.peerCount)
    (h : (m.peerAt r).connectionState ≠ .outgoing) : (m'.peerAt r).connectionState ≠ .outgoing :=
  (hc.evolves.peer r hr).moves.not_outgoing h

theorem NetManager.setPeer_eq (m : NetManager) (r : PeerRef) : m.setPeer r (m.peerAt r) = m := by
  rw [setPeer, Function.update_eq_self]

theorem NetManager.disconnectPeerForce_changes (hS : S.closes) (m : NetManager)
    (address : NetAddress) (reason : DisconnectReason) (socketErrorCode : ℕ)
    (eventData : Option NetPacket) :
    Changes S m (m.disconnectPeerForce address reason socketErrorCode eventData) := by
  rw [disconnectPeerForce]
  split
  · exact .refl
  · next r hr =>
    have hclose : ∀ before : (m.peerAt r).connectionState = .outgoing ∨
        (m.peerAt r).connectionState = .connected,
        ∀ args : NetEvent, args.type = .disconnect → args.peer = some r → args.userData = 0 →
        Changes S m ((m.setPeer r { m.peerAt r with
          connectionState := .disconnected }).createEvent args) := by
      intro before args ht hp hu
      obtain ⟨e, het, hep, heu, he⟩ := (m.setPeer r { m.peerAt r with
        connectionState := .disconnected }).createEvent_eq args
      rw [he]
      refine .single (.close r _ [] [] e hS (.finish _) rfl before (.inr rfl) (by simp)
        (by simp) (het.trans ht) (hep.trans hp) ?_ ⟨_, hr⟩ (fun n hn => ?_))
      · simp only [List.append_nil]
        exact .refl _
      · rw [List.mem_singleton.mp hn]
        exact NetEvent.filled_of_peer (.inr (het.trans ht)) (hep.trans hp) (heu.trans hu)
    rw [NetPeer.shutdownForce]
    cases hs : (m.peerAt r).connectionState with
    | disconnected =>
      simp only [noteShutdown, if_true]
      rw [setPeer_eq]
      exact (m.poolRecycleOption_aside _).changes
    | shutdownRequested =>
      simp only [noteShutdown, if_true]
      rw [setPeer_eq]
      exact (m.poolRecycleOption_aside _).changes
    | connected => exact hclose (.inr hs) _ rfl rfl rfl
    | outgoing => exact hclose (.inl hs) _ rfl rfl rfl

theorem networkError_about {e : NetEvent} (h : e.type = .networkError) (r : PeerRef) :
    ¬ e.About r := by
  rintro ⟨-, ht | ht | ht | ht⟩ <;> rw [h] at ht <;> cases ht

theorem NetManager.unreachable_changes (hS : S.closes) (m : NetManager) (endpoint : NetAddress)
    (reason : DisconnectReason) (errorCode : ℕ) :
    Changes S m (m.unreachable endpoint reason errorCode) := by
  rw [unreachable]
  split
  · exact (m.disconnectPeerForce_changes hS _ _ _ _).trans
      (Changes.createEvent (networkError_about rfl) ⟨rfl, rfl⟩)
  · exact Changes.createEvent (networkError_about rfl) ⟨rfl, rfl⟩

theorem NetManager.sendRaw_changes (hS : S.closes) (m : NetManager) (bytes : Bytes)
    (endpoint : NetAddress) (h : S.emits m ⟨endpoint, bytes⟩) :
    Changes S m (m.sendRaw bytes endpoint).1 := by
  have hlogged : ∀ results, Changes S m
      { m.logSent ⟨endpoint, bytes⟩ with sendResults := results } := fun results =>
    .head (.emit _ h) (.single (.aside ⟨⟨rfl, rfl, rfl, rfl, fun _ => .inl, rfl⟩, rfl⟩))
  obtain ⟨results, hsent | ⟨reason, code, hsent⟩⟩ := m.sendRaw_cases bytes endpoint
  · rw [hsent]
    exact hlogged results
  · rw [hsent]
    exact (hlogged results).trans (unreachable_changes hS _ _ _ _)

theorem NetManager.sendRawAndRecycle_changes (hS : S.closes) (m : NetManager) (packet : NetPacket)
    (endpoint : NetAddress) (h : S.emits m ⟨endpoint, packet.wire⟩) :
    Changes S m (m.sendRawAndRecycle packet endpoint).1 :=
  (m.sendRaw_changes hS _ _ h).trans (poolRecycle_aside _ _).changes

end Changes

section User

variable {S : Scope} {m : NetManager} {r : PeerRef} {p : NetPeer} {n : UInt8}

/-- A packet without a number that sessions may send. -/
theorem sessionDatagram_of_unstamped {c : PacketProperty} {p : NetPacket} {d : Datagram}
    (h : p.Unstamped c) (hd : headerByte d.bytes = headerByte p.wire)
    (hc : c = .ping ∨ c = .pong ∨ c = .merged ∨ c = .mtuCheck) : SessionDatagram n d := by
  have hp := h.headerProperty
  have hn := h.headerNumber
  rw [headerProperty, ← hd, ← headerProperty] at hp
  rw [headerNumber, ← hd, ← headerNumber] at hn
  rw [SessionDatagram, hp]
  rcases hc with rfl | rfl | rfl | rfl <;> exact hn

theorem Session.WellFormed.mergedBytes (h : p.session.WellFormed) (hc : p.mergeCount ≠ 0)
    (endpoint : NetAddress) : SessionDatagram p.connectNumber ⟨endpoint, p.mergedBytes⟩ := by
  rw [NetPeer.mergedBytes]
  split
  · refine sessionDatagram_of_unstamped h.merge ?_ (.inr (.inr (.inl rfl)))
    have hpos : 1 ≤ headerSize + p.mergePos := Nat.le_add_right 1 _
    rw [NetPacket.headerByte_wire _ h.merge.size_pos]
    exact headerByte_readBytes _ _ hpos
  · have hone : p.mergeCount = 1 := by omega
    exact UserHeader.sessionDatagram (d := ⟨endpoint, _⟩) (h.mergeSingle hone).2

theorem userHeader_of_userPacket {packet : NetPacket} (h : UserPacket packet) :
    UserHeader n (packet.setConnectionNumber n).wire := by
  have hs : 1 ≤ (packet.setConnectionNumber n).size := h.size_pos
  rw [UserHeader, NetPacket.headerProperty_wire _ hs, NetPacket.headerNumber_wire _ hs,
    NetPacket.property_setConnectionNumber, NetPacket.connectionNumber_setConnectionNumber]
  exact ⟨h.property, rfl⟩

/-- Gathering a packet keeps the header of the buffer, and a packet gathered alone stands in it as
it is. -/
theorem Session.WellFormed.mergePacket (h : p.session.WellFormed) {packet : NetPacket}
    (hs : p.connectionState ≠ .outgoing) (hp : UserHeader p.connectNumber packet.wire)
    (hsize : 1 ≤ packet.size) : (p.mergePacket packet).session.WellFormed :=
  { h with
    merge := (h.merge.write (Nat.succ_pos _) _).write (Nat.succ_pos _) _
    mergeBuffer := h.mergeBuffer.trans_eq (by
      rw [NetPeer.session, NetPeer.mergePacket]
      simp [NetPacket.copyFrom, NetPacket.setValueAt, NetPeer.session])
    mergeEmpty := fun hc => absurd hc (Nat.succ_ne_zero _)
    mergeSingle := by
      intro hc
      have hzero : p.mergePos = 0 := h.mergeEmpty (Nat.succ_injective hc)
      refine ⟨hs, ?_⟩
      -- the two bytes of the size end where the packet starts
      have hpos : (p.mergePacket packet).mergePos - 2 = packet.size := by
        change p.mergePos + packet.size + 2 - 2 = packet.size
        omega
      have hbyte : (p.mergePacket packet).mergeData.byte (headerSize + 2) = packet.byte 0 := by
        change ((p.mergeData.setValueAt packet.size (p.mergePos + headerSize) 2).copyFrom packet.data
          0 (p.mergePos + headerSize + 2) packet.size).byte (headerSize + 2) = packet.byte 0
        rw [hzero, Nat.zero_add]
        exact NetPacket.byte_copyFrom _ (NetPacket.three_lt_bufferSize _) hsize packet.size_le
      have hheader : headerByte (readBytes (p.mergePacket packet).mergeData.data (headerSize + 2)
          ((p.mergePacket packet).mergePos - 2)) = headerByte packet.wire := by
        rw [hpos, headerByte_readBytes _ _ hsize, NetPacket.headerByte_wire _ hsize]
        exact hbyte
      change UserHeader p.connectNumber (readBytes (p.mergePacket packet).mergeData.data
        (headerSize + 2) ((p.mergePacket packet).mergePos - 2))
      rw [UserHeader, headerProperty, headerNumber] at hp ⊢
      rw [hheader]
      exact hp }

namespace NetManager

theorem sendMerged_changes (hS : S.Serving n) (h : Serves m r n) :
    Changes S m (m.sendMerged r) := by
  have hd : ∀ endpoint, (m.peerAt r).mergeCount ≠ 0 →
      SessionDatagram n ⟨endpoint, (m.peerAt r).mergedBytes⟩ := by
    intro endpoint hc
    rw [← h.number]
    exact (h.consistent.wellFormed r h.lt).mergedBytes hc endpoint
  rw [sendMerged]
  split
  · exact .refl
  · next hc =>
    refine (m.sendRaw_changes hS.closes _ (m.peerAt r).endpoint (hS.emits m _ (hd _ hc))).trans ?_
    refine Changes.touch ⟨rfl, rfl, rfl, rfl, fun hw => ?_⟩ rfl rfl rfl
    exact { hw with mergeEmpty := fun _ => rfl, mergeSingle := fun h => absurd h.symm one_ne_zero }

theorem sendUserData_changes (hS : S.Serving n) (h : Serves m r n)
    (hs : (m.peerAt r).connectionState ≠ .outgoing) {packet : NetPacket} (hp : UserPacket packet) :
    Changes S m (m.sendUserData r packet) := by
  rw [sendUserData]
  dsimp only
  split
  · refine m.sendRaw_changes hS.closes _ _ (hS.emits m _ ?_)
    rw [h.number]
    exact UserHeader.sessionDatagram (d := ⟨_, _⟩) (userHeader_of_userPacket hp)
  · have hmerge : ∀ m' : NetManager, Changes S m m' → Changes S m
        (m'.setPeer r ((m'.peerAt r).mergePacket
          (packet.setConnectionNumber (m.peerAt r).connectNumber))) := by
      intro m' hc
      have h' := h.changes hS.accepts hc
      refine hc.trans (Changes.touch ⟨rfl, rfl, rfl, rfl, fun hw => ?_⟩ rfl rfl rfl)
      refine hw.mergePacket (hc.not_outgoing h.lt hs) ?_ hp.size_pos
      rw [h.number, h'.number]
      exact userHeader_of_userPacket hp
    split
    · exact hmerge _ (sendMerged_changes hS h)
    · exact hmerge _ .refl

end NetManager

end User

end LiteNet.Manager
