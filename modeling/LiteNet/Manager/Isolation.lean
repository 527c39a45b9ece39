import LiteNet.Manager.Serving
import LiteNet.Manager.StalePeers

/-! # What one address can touch

Peers, requests, datagrams and events all belong to an address. What arrives from an
address, and what the application does about one, touches what belongs to it and
nothing else, so sessions with different remotes never disturb each other.
-/

namespace LiteNet.Manager
open Library Wire Channels Relation

/-- What a manager is configured with. -/
structure Settings where
  running : Bool
  packetPoolSize : ℕ
  broadcastReceiveEnabled : Bool
  unconnectedMessagesEnabled : Bool
  channelsCount : ℕ
  disconnectTimeout : ℤ
  reconnectDelay : ℤ
  maxConnectAttempts : ℤ
  pingInterval : ℤ
  disconnectOnUnreachable : Bool

def NetManager.settings (m : NetManager) : Settings where
  running := m.running
  packetPoolSize := m.packetPoolSize
  broadcastReceiveEnabled := m.broadcastReceiveEnabled
  unconnectedMessagesEnabled := m.unconnectedMessagesEnabled
  channelsCount := m.channelsCount
  disconnectTimeout := m.disconnectTimeout
  reconnectDelay := m.reconnectDelay
  maxConnectAttempts := m.maxConnectAttempts
  pingInterval := m.pingInterval
  disconnectOnUnreachable := m.disconnectOnUnreachable

/-- Peers and requests that wait are found under their own addresses. -/
structure Known (m : NetManager) : Prop where
  peers : ∀ k r, m.peers k = some r → r < m.peerCount ∧ (m.peerAt r).endpoint.key = k
  requests : ∀ k q, m.connectionRequests k = some q →
    q < m.requestCount ∧ (m.requestAt q).remoteEndpoint.key = k

theorem Consistent.known {m : NetManager} (hm : Consistent m) : Known m where
  peers := hm.registered
  requests := fun k q hq =>
    have hwaits := hm.books.waiting k q hq
    ⟨hwaits.1, hwaits.2.1⟩

/-- Whatever changes belongs to an address in `K`; new peers and requests, datagrams sent and the
peers that events are about do. -/
structure TouchesOnly (K : Set NetAddress.Key) (m m' : NetManager) : Prop where
  count : m.peerCount ≤ m'.peerCount
  peerAt : ∀ r < m.peerCount, (m.peerAt r).endpoint.key ∉ K → m'.peerAt r = m.peerAt r
  endpoint : ∀ r < m.peerCount, (m'.peerAt r).endpoint = (m.peerAt r).endpoint
  made : ∀ r < m'.peerCount, m.peerCount ≤ r → (m'.peerAt r).endpoint.key ∈ K
  peers : ∀ k ∉ K, m'.peers k = m.peers k
  requests : ∀ k ∉ K, m'.connectionRequests k = m.connectionRequests k
  requestCount : m.requestCount ≤ m'.requestCount
  requestAt : ∀ q < m.requestCount, (m.requestAt q).remoteEndpoint.key ∉ K →
    m'.requestAt q = m.requestAt q
  remoteEndpoint : ∀ q < m.requestCount,
    (m'.requestAt q).remoteEndpoint = (m.requestAt q).remoteEndpoint
  asked : ∀ q < m'.requestCount, m.requestCount ≤ q →
    (m'.requestAt q).remoteEndpoint.key ∈ K
  sent : ∃ ds, m'.sent = m.sent ++ ds ∧ ∀ d ∈ ds, d.endpoint.key ∈ K
  events : ∃ es, m'.events = m.events ++ es ∧ ∀ e ∈ es, ∀ r, e.peer = some r →
    r < m'.peerCount ∧ (m'.peerAt r).endpoint.key ∈ K
  known : Known m → Known m'
  settings : m'.settings = m.settings

namespace TouchesOnly

variable {K L : Set NetAddress.Key} {m m' m'' : NetManager}

theorem refl (m : NetManager) : TouchesOnly K m m where
  count := le_rfl
  peerAt := fun _ _ _ => rfl
  endpoint := fun _ _ => rfl
  made := fun _ hr hn => absurd hr (not_lt.mpr hn)
  peers := fun _ _ => rfl
  requests := fun _ _ => rfl
  requestCount := le_rfl
  requestAt := fun _ _ _ => rfl
  remoteEndpoint := fun _ _ => rfl
  asked := fun _ hq hn => absurd hq (not_lt.mpr hn)
  sent := ⟨[], (List.append_nil _).symm, by simp⟩
  events := ⟨[], (List.append_nil _).symm, by simp⟩
  known := id
  settings := rfl

theorem mono (h : TouchesOnly K m m') (hKL : K ⊆ L) : TouchesOnly L m m' where
  count := h.count
  peerAt := fun r hr hk => h.peerAt r hr (fun hK => hk (hKL hK))
  endpoint := h.endpoint
  made := fun r hr hn => hKL (h.made r hr hn)
  peers := fun k hk => h.peers k (fun hK => hk (hKL hK))
  requests := fun k hk => h.requests k (fun hK => hk (hKL hK))
  requestCount := h.requestCount
  requestAt := fun q hq hk => h.requestAt q hq (fun hK => hk (hKL hK))
  remoteEndpoint := h.remoteEndpoint
  asked := fun q hq hn => hKL (h.asked q hq hn)
  sent := by
    obtain ⟨ds, hds, hall⟩ := h.sent
    exact ⟨ds, hds, fun d hd => hKL (hall d hd)⟩
  events := by
    obtain ⟨es, hes, hall⟩ := h.events
    exact ⟨es, hes, fun e he r hr => (hall e he r hr).imp_right (fun hk => hKL hk)⟩
  known := h.known
  settings := h.settings

theorem trans (h : TouchesOnly K m m') (h' : TouchesOnly K m' m'') : TouchesOnly K m m'' where
  count := h.count.trans h'.count
  peerAt := by
    intro r hr hk
    have hfirst := h.peerAt r hr hk
    rw [h'.peerAt r (hr.trans_le h.count) (by rwa [hfirst]), hfirst]
  endpoint := fun r hr => (h'.endpoint r (hr.trans_le h.count)).trans (h.endpoint r hr)
  made := by
    intro r hr hn
    rcases lt_or_ge r m'.peerCount with hlt | hge
    · rw [h'.endpoint r hlt]
      exact h.made r hlt hn
    · exact h'.made r hr hge
  peers := fun k hk => (h'.peers k hk).trans (h.peers k hk)
  requests := fun k hk => (h'.requests k hk).trans (h.requests k hk)
  requestCount := h.requestCount.trans h'.requestCount
  requestAt := by
    intro q hq hk
    have hfirst := h.requestAt q hq hk
    rw [h'.requestAt q (hq.trans_le h.requestCount) (by rwa [hfirst]), hfirst]
  remoteEndpoint := fun q hq =>
    (h'.remoteEndpoint q (hq.trans_le h.requestCount)).trans (h.remoteEndpoint q hq)
  asked := by
    intro q hq hn
    rcases lt_or_ge q m'.requestCount with hlt | hge
    · rw [h'.remoteEndpoint q hlt]
      exact h.asked q hlt hn
    · exact h'.asked q hq hge
  sent := by
    obtain ⟨ds, hds, hall⟩ := h.sent
    obtain ⟨ds', hds', hall'⟩ := h'.sent
    exact ⟨ds ++ ds', by rw [hds', hds, List.append_assoc],
      fun d hd => (List.mem_append.mp hd).elim (hall d) (hall' d)⟩
  events := by
    obtain ⟨es, hes, hall⟩ := h.events
    obtain ⟨es', hes', hall'⟩ := h'.events
    refine ⟨es ++ es', by rw [hes', hes, List.append_assoc], fun e he r hr => ?_⟩
    rcases List.mem_append.mp he with he | he
    · obtain ⟨hlt, hk⟩ := hall e he r hr
      exact ⟨hlt.trans_le h'.count, by rwa [h'.endpoint r hlt]⟩
    · exact hall' e he r hr
  known := fun hm => h'.known (h.known hm)
  settings := h'.settings.trans h.settings

end TouchesOnly

section Operations

variable {K : Set NetAddress.Key} {m m' : NetManager} {r : PeerRef} {e : NetAddress}

theorem Aside.touchesOnly (h : Aside m m') (settings : m'.settings = m.settings) :
    TouchesOnly K m m' := by
  have hcount : m'.requestCount = m.requestCount := congrArg Bookkeeping.requestCount h.bookkeeping
  have hat : m'.requestAt = m.requestAt := congrArg Bookkeeping.requestAt h.bookkeeping
  refine ⟨h.peerCount.ge, fun _ _ _ => by rw [h.peerAt], fun _ _ => by rw [h.peerAt],
    fun q hq hn => ?_, fun _ _ => by rw [h.peers], fun _ _ => by rw [h.requests], hcount.ge,
    fun _ _ _ => by rw [hat], fun _ _ => by rw [hat], fun q hq hn => ?_,
    ⟨[], by rw [h.sent, List.append_nil], by simp⟩, ⟨[], by rw [h.events, List.append_nil], by simp⟩,
    fun hm => ⟨fun k q hq => ?_, ?_⟩, settings⟩
  · rw [h.peerCount] at hq
    exact absurd hq (not_lt.mpr hn)
  · rw [hcount] at hq
    exact absurd hq (not_lt.mpr hn)
  · rw [h.peerCount, h.peerAt]
    exact hm.peers k q (by rwa [h.peers] at hq)
  · rw [hcount, hat, h.requests]
    exact hm.requests

namespace NetManager

theorem poolRecycle_touches (m : NetManager) (packet : NetPacket) :
    TouchesOnly K m (m.poolRecycle packet) := by
  refine (m.poolRecycle_aside packet).touchesOnly ?_
  rw [poolRecycle]
  split <;> rfl

theorem poolRecycleOption_touches (m : NetManager) (packet : Option NetPacket) :
    TouchesOnly K m (m.poolRecycleOption packet) := by
  cases packet with
  | none => exact .refl m
  | some packet => exact m.poolRecycle_touches packet

theorem poolGetPacket_touches (m : NetManager) (size : ℕ) :
    TouchesOnly K m (m.poolGetPacket size).2 := by
  refine (m.poolGetPacket_aside size).touchesOnly ?_
  rw [poolGetPacket]
  split <;> rfl

/-- A peer of the address that stays at its endpoint. -/
theorem setPeer_touches {p : NetPeer} (hk : (m.peerAt r).endpoint.key ∈ K)
    (hp : p.endpoint = (m.peerAt r).endpoint) : TouchesOnly K m (m.setPeer r p) := by
  have hendpoint : ∀ q, ((m.setPeer r p).peerAt q).endpoint = (m.peerAt q).endpoint := by
    intro q
    by_cases hq : q = r
    · rw [hq, setPeer_self, hp]
    · rw [setPeer_of_ne m hq]
  refine { TouchesOnly.refl (K := K) m with
    peerAt := fun q _ hkq => ?_
    endpoint := fun q _ => hendpoint q
    made := fun q hq hn => absurd hq (not_lt.mpr hn)
    events := ⟨[], (List.append_nil _).symm, by simp⟩
    known := fun hm => ⟨fun k q hq => ?_, hm.requests⟩ }
  · have hq : q ≠ r := by
      rintro rfl
      exact hkq hk
    exact setPeer_of_ne m hq p
  · rw [hendpoint]
    exact hm.peers k q hq

theorem createEvent_touches {args : NetEvent}
    (about : ∀ q, args.peer = some q → q < m.peerCount ∧ (m.peerAt q).endpoint.key ∈ K) :
    TouchesOnly K m (m.createEvent args) := by
  obtain ⟨event, -, hpeer, -, hevent⟩ := m.createEvent_eq args
  rw [hevent]
  refine { TouchesOnly.refl (K := K) m with
    events := ⟨[event], rfl, fun a ha q hq => ?_⟩
    known := fun hm => ⟨hm.peers, hm.requests⟩ }
  rw [List.mem_singleton.mp ha, hpeer] at hq
  exact about q hq

/-- The peer that is found under an address belongs to it. -/
theorem found_touches (hm : Known m) (he : e.key ∈ K) {q : PeerRef}
    (hq : m.tryGetPeer e = some q) : q < m.peerCount ∧ (m.peerAt q).endpoint.key ∈ K := by
  obtain ⟨hlt, hkey⟩ := hm.peers _ q hq
  exact ⟨hlt, hkey ▸ he⟩

theorem shutdownForce_endpoint (p : NetPeer) : p.shutdownForce.1.endpoint = p.endpoint := by
  obtain ⟨s, hs⟩ := shutdownForce_sameButState p
  rw [hs]

theorem noteShutdown_touches {shutdownResult : ShutdownResult} {reason : DisconnectReason}
    {socketErrorCode : ℕ} {eventData : Option NetPacket} (hr : r < m.peerCount)
    (hk : (m.peerAt r).endpoint.key ∈ K) :
    TouchesOnly K m (m.noteShutdown r shutdownResult reason socketErrorCode eventData) := by
  rw [noteShutdown]
  split
  · exact m.poolRecycleOption_touches eventData
  · refine createEvent_touches (fun q hq => ?_)
    rw [← Option.some.inj hq]
    exact ⟨hr, hk⟩

theorem disconnectPeerForce_touches (hm : Known m) {address : NetAddress}
    (he : address.key ∈ K) (reason : DisconnectReason) (socketErrorCode : ℕ)
    (eventData : Option NetPacket) :
    TouchesOnly K m (m.disconnectPeerForce address reason socketErrorCode eventData) := by
  rw [disconnectPeerForce]
  split
  · exact .refl m
  · next q hq =>
    obtain ⟨hlt, hk⟩ := found_touches hm he hq
    have hset := setPeer_touches hk (shutdownForce_endpoint (m.peerAt q))
    refine hset.trans (noteShutdown_touches (hlt.trans_le hset.count) ?_)
    rw [hset.endpoint q hlt]
    exact hk

theorem logSent_touches (m : NetManager) {d : Datagram} (hd : d.endpoint.key ∈ K)
    (sendResults : Stream' SendResult) :
    TouchesOnly K m { m.logSent d with sendResults := sendResults } :=
  { TouchesOnly.refl (K := K) m with
    sent := ⟨[d], rfl, fun x hx => by rw [List.mem_singleton.mp hx]; exact hd⟩
    events := ⟨[], (List.append_nil _).symm, by simp⟩
    known := fun hm => ⟨hm.peers, hm.requests⟩ }

theorem sendRaw_touches (hm : Known m) (he : e.key ∈ K) (bytes : Bytes) :
    TouchesOnly K m (m.sendRaw bytes e).1 := by
  obtain ⟨results, h | ⟨reason, code, h⟩⟩ := m.sendRaw_cases bytes e
  · rw [h]
    exact m.logSent_touches he results
  · have hlogged := m.logSent_touches (d := ⟨e, bytes⟩) he results
    rw [h, unreachable]
    refine hlogged.trans (TouchesOnly.trans ?_ (createEvent_touches (fun _ hq => by cases hq)))
    split
    · exact disconnectPeerForce_touches (hlogged.known hm) he reason code none
    · exact .refl _

/-- Serving the peer `r` at the endpoint `e` led from `m` here. -/
structure ServedIn (K : Set NetAddress.Key) (m : NetManager) (r : PeerRef) (e : NetAddress)
    (x : NetManager) : Prop where
  known : Known x
  lt : r < x.peerCount
  endpoint : (x.peerAt r).endpoint = e
  touches : TouchesOnly K m x

theorem ServedIn.trans {x y : NetManager} (h : ServedIn K m r e x) (hy : TouchesOnly K x y) :
    ServedIn K m r e y where
  known := hy.known h.known
  lt := h.lt.trans_le hy.count
  endpoint := (hy.endpoint r h.lt).trans h.endpoint
  touches := h.touches.trans hy

/-- The peer stays at its endpoint, whatever else is new about it. -/
theorem ServedIn.setPeer {x : NetManager} (h : ServedIn K m r e x) (he : e.key ∈ K) {p : NetPeer}
    (hp : p.endpoint = e) : ServedIn K m r e (x.setPeer r p) :=
  h.trans (setPeer_touches (h.endpoint.symm ▸ he) (hp.trans h.endpoint.symm))

theorem servedIn_refl (hm : Known m) (hr : r < m.peerCount) :
    ServedIn K m r (m.peerAt r).endpoint m :=
  ⟨hm, hr, rfl, .refl m⟩

theorem servingKeepsAt_servedIn (m : NetManager) (r : PeerRef) (he : e.key ∈ K) :
    ServingKeepsAt r e (ServedIn K m r e) where
  endpoint := fun _ hx => hx.endpoint
  setPeer := fun _ _ hx hp _ => hx.setPeer he hp
  createEvent := fun _ _ hx about =>
    hx.trans (createEvent_touches (fun q hq => found_touches hx.known he (about q hq)))
  poolRecycle := fun x packet hx => hx.trans (x.poolRecycle_touches packet)
  poolGetPacket := fun x size hx => hx.trans (x.poolGetPacket_touches size)
  sendRaw := fun _ bytes hx => hx.trans (sendRaw_touches hx.known he bytes)
  getCurrentTime := fun x hx => hx.trans (x.getCurrentTime_aside.touchesOnly rfl)

section Serving

variable {x : NetManager}

theorem ServedIn.poolRecycle (h : ServedIn K m r e x) (packet : NetPacket) :
    ServedIn K m r e (x.poolRecycle packet) := h.trans (x.poolRecycle_touches packet)

theorem ServedIn.processPong (h : ServedIn K m r e x) (he : e.key ∈ K) (packet : NetPacket) :
    ServedIn K m r e (x.processPong r packet) := by
  have hendpoint := h.endpoint
  have hclock : ServedIn K m r e x.highResolutionNow.2.getCurrentTime.2 :=
    h.trans ((x.highResolutionNow_aside.trans (getCurrentTime_aside _)).touchesOnly rfl)
  have hset : ∀ p : NetPeer, p.endpoint = e →
      ServedIn K m r e (x.highResolutionNow.2.getCurrentTime.2.setPeer r p) :=
    fun _ => hclock.setPeer he
  rw [NetManager.processPong]
  dsimp only
  split
  · refine ServedIn.poolRecycle ((servingKeepsAt_servedIn m r he).connectionLatencyUpdated ?_
      hendpoint _) packet
    apply hset
    exact hendpoint
  · exact h.poolRecycle packet

theorem ServedIn.processMerged (h : ServedIn K m r e x)
    {process : NetManager → NetPacket → NetManager}
    (hprocess : ∀ y packet, ServedIn K m r e y → ServedIn K m r e (process y packet))
    (packet : NetPacket) (fuel pos : ℕ) :
    ServedIn K m r e (processMerged process packet fuel pos x) := by
  induction fuel generalizing pos x with
  | zero => exact h
  | succ fuel ih =>
    have hgot := h.trans (x.poolGetPacket_touches (packet.getValueAt pos 2))
    rw [NetManager.processMerged]
    dsimp only
    split_ifs
    · exact h
    · exact h
    · exact hgot
    · exact ih (hprocess _ _ hgot) _

theorem ServedIn.processPacketWith (h : ServedIn K m r e x) (he : e.key ∈ K)
    {process : NetManager → NetPacket → NetManager}
    (hprocess : ∀ y packet, ServedIn K m r e y → ServedIn K m r e (process y packet))
    (packet : NetPacket) : ServedIn K m r e (x.processPacketWith process r packet) := by
  have hkeeps := servingKeepsAt_servedIn (K := K) m r he
  have hset : ∀ p : NetPeer, p.endpoint = (x.peerAt r).endpoint →
      ServedIn K m r e (x.setPeer r p) := fun _ hp => h.setPeer he (hp.trans h.endpoint)
  have hheard : ServedIn K m r e (x.setPeer r { x.peerAt r with timeSinceLastPacket := 0 }) :=
    hset _ rfl
  rw [NetManager.processPacketWith]
  dsimp only
  split_ifs
  · exact h.poolRecycle packet
  · refine ServedIn.poolRecycle (hset _ ?_) packet
    rfl
  · exact ServedIn.poolRecycle (hset _ rfl) packet
  · exact h.poolRecycle packet
  · split
    · exact (hheard.processMerged hprocess packet _ _).poolRecycle packet
    · exact hkeeps.processPing hheard packet
    · exact hheard.processPong he packet
    · exact hkeeps.processChanneled hheard packet
    · exact hkeeps.processChanneled hheard packet
    · exact hkeeps.createReceiveEvent hheard packet _ _ _ h.endpoint
    · exact hkeeps.processMtuPacket hheard packet
    · exact hkeeps.processMtuPacket hheard packet
    · exact hheard

theorem ServedIn.processPacketTo (he : e.key ∈ K) (depth : ℕ) (h : ServedIn K m r e x)
    (packet : NetPacket) : ServedIn K m r e (processPacketTo r depth x packet) := by
  induction depth generalizing x packet with
  | zero => exact h
  | succ depth ih => exact h.processPacketWith he (fun y packet hy => ih hy packet) packet

theorem ServedIn.sendRaw (h : ServedIn K m r e x) (he : e.key ∈ K) (bytes : Bytes)
    {endpoint : NetAddress} (hendpoint : endpoint = e) :
    ServedIn K m r e (x.sendRaw bytes endpoint).1 :=
  (servingKeepsAt_servedIn m r he).sendTo h bytes hendpoint

theorem ServedIn.disconnectPeerForce (h : ServedIn K m r e x) (he : e.key ∈ K)
    {address : NetAddress} (haddress : address = e) (reason : DisconnectReason)
    (socketErrorCode : ℕ) (eventData : Option NetPacket) :
    ServedIn K m r e (x.disconnectPeerForce address reason socketErrorCode eventData) :=
  h.trans (disconnectPeerForce_touches h.known (haddress ▸ he) reason socketErrorCode eventData)

theorem ServedIn.updatePing (h : ServedIn K m r e x) (he : e.key ∈ K) (deltaTime : ℤ) :
    ServedIn K m r e (x.updatePing r deltaTime) := by
  have hclock : ServedIn K m r e x.highResolutionNow.2 :=
    h.trans (x.highResolutionNow_aside.touchesOnly rfl)
  rw [NetManager.updatePing]
  dsimp only
  generalize hp : (if (x.peerAt r).pingTimer.running = true then _ else _) = p
  have hendpoint : p.endpoint = e := by
    rw [← hp]
    split <;> exact h.endpoint
  split
  · apply ServedIn.sendRaw _ he _ hendpoint
    exact hclock.setPeer he hendpoint
  · exact h.setPeer he h.endpoint

theorem ServedIn.updateRtt (h : ServedIn K m r e x) (he : e.key ∈ K) (deltaTime : ℤ) :
    ServedIn K m r e (x.updateRtt r deltaTime) := by
  have hset : ∀ p : NetPeer, p.endpoint = (x.peerAt r).endpoint →
      ServedIn K m r e (x.setPeer r p) := fun _ hp => h.setPeer he (hp.trans h.endpoint)
  rw [NetManager.updateRtt]
  dsimp only
  split
  · exact hset _ rfl
  · exact hset _ rfl

theorem ServedIn.updateConnected (h : ServedIn K m r e x) (he : e.key ∈ K) (deltaTime : ℤ) :
    ServedIn K m r e (x.updateConnected r deltaTime) := by
  have hkeeps := servingKeepsAt_servedIn (K := K) m r he
  have hmtu := hkeeps.updateMtuLogic ((h.updatePing he deltaTime).updateRtt he deltaTime) deltaTime
  rw [NetManager.updateConnected]
  exact hkeeps.sendMerged (hkeeps.updateUnreliable (hkeeps.updateChannels _ hmtu))

theorem ServedIn.updateShutdown (h : ServedIn K m r e x) (he : e.key ∈ K) (deltaTime : ℤ) :
    ServedIn K m r e (x.updateShutdown r deltaTime) := by
  have hset : ∀ p : NetPeer, p.endpoint = (x.peerAt r).endpoint →
      ServedIn K m r e (x.setPeer r p) := fun _ hp => h.setPeer he (hp.trans h.endpoint)
  have hendpoint := h.endpoint
  rw [NetManager.updateShutdown]
  dsimp only
  split
  · exact hset _ rfl
  · split
    · refine ServedIn.sendRaw (hset _ ?_) he _ hendpoint
      rfl
    · exact hset _ rfl

theorem ServedIn.updateOutgoing (h : ServedIn K m r e x) (he : e.key ∈ K) (deltaTime : ℤ) :
    ServedIn K m r e (x.updateOutgoing r deltaTime) := by
  have hset : ∀ p : NetPeer, p.endpoint = (x.peerAt r).endpoint →
      ServedIn K m r e (x.setPeer r p) := fun _ hp => h.setPeer he (hp.trans h.endpoint)
  have hendpoint := h.endpoint
  rw [NetManager.updateOutgoing]
  dsimp only
  split
  · split
    · refine ServedIn.disconnectPeerForce (hset _ ?_) he hendpoint _ _ _
      rfl
    · split
      · exact hset _ rfl
      · refine ServedIn.sendRaw (hset _ ?_) he _ hendpoint
        rfl
  · exact hset _ rfl

theorem ServedIn.update (h : ServedIn K m r e x) (he : e.key ∈ K) (deltaTime : ℤ) :
    ServedIn K m r e (x.update r deltaTime) := by
  have hendpoint := h.endpoint
  have hpassed : ServedIn K m r e (x.setPeer r { x.peerAt r with
      timeSinceLastPacket := wrapInt32 ((x.peerAt r).timeSinceLastPacket + deltaTime) }) :=
    h.setPeer he hendpoint
  rw [NetManager.update]
  dsimp only
  split
  · split
    · exact hpassed.disconnectPeerForce he hendpoint _ _ _
    · exact hpassed.updateConnected he deltaTime
  · exact hpassed.updateShutdown he deltaTime
  · exact hpassed.updateOutgoing he deltaTime
  · exact hpassed

theorem ServedIn.sendInternal (h : ServedIn K m r e x) (he : e.key ∈ K) (data : Bytes)
    (offset size : ℕ) (channelNumber : UInt8) (deliveryMethod : DeliveryMethod) (userData : ℕ) :
    ServedIn K m r e (x.sendInternal r data offset size channelNumber deliveryMethod userData) :=
  (servingKeepsAt_servedIn m r he).sendInternal h data offset size channelNumber deliveryMethod
    userData

end Serving

theorem update_touches (hm : Known m) (hr : r < m.peerCount)
    (hk : (m.peerAt r).endpoint.key ∈ K) (deltaTime : ℤ) :
    TouchesOnly K m (m.update r deltaTime) :=
  ((servedIn_refl hm hr).update hk deltaTime).touches

theorem sendInternal_touches (hm : Known m) (hr : r < m.peerCount)
    (hk : (m.peerAt r).endpoint.key ∈ K) (data : Bytes) (offset size : ℕ) (channelNumber : UInt8)
    (deliveryMethod : DeliveryMethod) (userData : ℕ) :
    TouchesOnly K m
      (m.sendInternal r data offset size channelNumber deliveryMethod userData) :=
  ((servedIn_refl hm hr).sendInternal hk data offset size channelNumber deliveryMethod
    userData).touches

theorem processPacket_touches (hm : Known m) (hr : r < m.peerCount)
    (hk : (m.peerAt r).endpoint.key ∈ K) (packet : NetPacket) :
    TouchesOnly K m (m.processPacket r packet) :=
  ((servedIn_refl hm hr).processPacketTo hk _ packet).touches

theorem ServedIn.shutdown {x : NetManager} (h : ServedIn K m r e x) (he : e.key ∈ K)
    (rejectData : Option Bytes) (offset size : ℕ) (force : Bool) :
    ServedIn K m r e (x.shutdown r rejectData offset size force).1 := by
  have hset : ∀ p : NetPeer, p.endpoint = (x.peerAt r).endpoint →
      ServedIn K m r e (x.setPeer r p) := fun _ hp => h.setPeer he (hp.trans h.endpoint)
  have hendpoint := h.endpoint
  rw [NetManager.shutdown]
  dsimp only
  split
  · exact hset _ (shutdownForce_endpoint _)
  · refine ServedIn.sendRaw (hset _ ?_) he _ hendpoint
    rfl

theorem disconnectPeer_touches (hm : Known m) {address : NetAddress} (he : address.key ∈ K)
    (reason : DisconnectReason) (socketErrorCode : ℕ) (force : Bool) (rejectData : Option Bytes)
    (offset size : ℕ) (eventData : Option NetPacket) :
    TouchesOnly K m (m.disconnectPeer address reason socketErrorCode force rejectData offset size
      eventData) := by
  rw [disconnectPeer]
  split
  · exact .refl m
  · next q hq =>
    obtain ⟨hlt, hk⟩ := found_touches hm he hq
    have hshut := (servedIn_refl hm hlt).shutdown hk rejectData offset size force
    refine hshut.touches.trans (noteShutdown_touches hshut.lt ?_)
    rw [hshut.endpoint]
    exact hk

theorem getNextPeerId_touches (m : NetManager) : TouchesOnly K m m.getNextPeerId.2 := by
  rw [getNextPeerId]
  split
  · exact { TouchesOnly.refl (K := K) m with
      sent := ⟨[], (List.append_nil _).symm, by simp⟩
      events := ⟨[], (List.append_nil _).symm, by simp⟩
      known := fun hm => ⟨hm.peers, hm.requests⟩ }
  · exact { TouchesOnly.refl (K := K) m with
      sent := ⟨[], (List.append_nil _).symm, by simp⟩
      events := ⟨[], (List.append_nil _).symm, by simp⟩
      known := fun hm => ⟨hm.peers, hm.requests⟩ }

theorem newPeer_touches (m : NetManager) {p : NetPeer} (hk : p.endpoint.key ∈ K) :
    TouchesOnly K m (m.newPeer p) := by
  have hold : ∀ q < m.peerCount, (m.newPeer p).peerAt q = m.peerAt q :=
    fun q hq => Function.update_of_ne hq.ne _ _
  refine { TouchesOnly.refl (K := K) m with
    count := Nat.le_succ _
    peerAt := fun q hq _ => hold q hq
    endpoint := fun q hq => congrArg NetPeer.endpoint (hold q hq)
    made := fun q hq hn => ?_
    events := ⟨[], (List.append_nil _).symm, by simp⟩
    known := fun hm => ⟨fun k q hq => ?_, hm.requests⟩ }
  · have hq' : q = m.peerCount := le_antisymm (Nat.lt_succ_iff.mp hq) hn
    rw [hq']
    change (Function.update m.peerAt m.peerCount p m.peerCount).endpoint.key ∈ K
    rw [Function.update_self]
    exact hk
  · obtain ⟨hlt, hkey⟩ := hm.peers k q hq
    rw [hold q hlt]
    exact ⟨Nat.lt_succ_of_lt hlt, hkey⟩

theorem addPeer_touches (hr : r < m.peerCount) (hk : (m.peerAt r).endpoint.key ∈ K) :
    TouchesOnly K m (m.addPeer r) := by
  rw [addPeer_eq]
  refine { TouchesOnly.refl (K := K) m with
    peers := fun k hkn => ?_
    sent := ⟨[], (List.append_nil _).symm, by simp⟩
    events := ⟨[], (List.append_nil _).symm, by simp⟩
    known := fun hm => ⟨fun k q hq => ?_, hm.requests⟩ }
  · have hne : k ≠ (m.peerAt r).endpoint.key := by
      rintro rfl
      exact hkn hk
    dsimp only
    split
    · rfl
    · exact Function.update_of_ne hne _ _
  · dsimp only at hq
    split at hq
    · exact hm.peers k q hq
    · by_cases hkey : k = (m.peerAt r).endpoint.key
      · rw [hkey, Function.update_self] at hq
        rw [← Option.some.inj hq]
        exact ⟨hr, hkey.symm⟩
      · rw [Function.update_of_ne hkey] at hq
        exact hm.peers k q hq

theorem removePeerInternal_touches (m : NetManager) {address : NetAddress}
    (he : address.key ∈ K) : TouchesOnly K m (m.removePeerInternal address) := by
  cases hr : m.peers address.key with
  | none =>
    rw [removePeerInternal, hr]
    exact .refl m
  | some r =>
    rw [m.removePeerInternal_eq hr]
    refine { TouchesOnly.refl (K := K) m with
      peers := fun k hkn => ?_
      sent := ⟨[], (List.append_nil _).symm, by simp⟩
      events := ⟨[], (List.append_nil _).symm, by simp⟩
      known := fun hm => ⟨fun k q hq => ?_, hm.requests⟩ }
    · have hne : k ≠ address.key := by
        rintro rfl
        exact hkn he
      exact Function.update_of_ne hne _ _
    · dsimp only at hq
      by_cases hkey : k = address.key
      · rw [hkey, Function.update_self] at hq
        cases hq
      · rw [Function.update_of_ne hkey] at hq
        exact hm.peers k q hq

theorem register_touches (hm : Known m) {p : NetPeer} (hk : p.endpoint.key ∈ K) (bytes : Bytes) :
    TouchesOnly K m (((m.newPeer p).sendRaw bytes p.endpoint).1.addPeer m.peerCount) ∧
      m.peerCount < (((m.newPeer p).sendRaw bytes p.endpoint).1.addPeer m.peerCount).peerCount := by
  have hnew := m.newPeer_touches hk
  have hsend : TouchesOnly K (m.newPeer p) ((m.newPeer p).sendRaw bytes p.endpoint).1 :=
    sendRaw_touches (hnew.known hm) hk bytes
  have hlt : m.peerCount < (m.newPeer p).peerCount := Nat.lt_succ_self _
  have hadd : TouchesOnly K ((m.newPeer p).sendRaw bytes p.endpoint).1
      (((m.newPeer p).sendRaw bytes p.endpoint).1.addPeer m.peerCount) := by
    refine addPeer_touches (hlt.trans_le hsend.count) ?_
    rw [hsend.endpoint _ hlt]
    exact hnew.made _ hlt le_rfl
  exact ⟨(hnew.trans hsend).trans hadd, hlt.trans_le (hsend.count.trans hadd.count)⟩

theorem newOutgoing_touches (hm : Known m) {address : NetAddress} (he : address.key ∈ K)
    (connectNum : UInt8) (connectData : Bytes) :
    TouchesOnly K m ((m.newOutgoing address connectNum connectData).addPeer m.peerCount) := by
  have hnumbered : TouchesOnly K m m.getNextPeerId.2.getCurrentTime.2 :=
    m.getNextPeerId_touches.trans ((getCurrentTime_aside _).touchesOnly rfl)
  have hcount : m.getNextPeerId.2.getCurrentTime.2.peerCount = m.peerCount :=
    (Numbered.getNextPeerId m).peerCount
  rw [newOutgoing]
  dsimp only
  generalize m.getNextPeerId.2.getCurrentTime = clock at hnumbered hcount ⊢
  rw [← hcount]
  exact hnumbered.trans (register_touches (hnumbered.known hm) he _).1

theorem connect_touches (hm : Known m) {address : NetAddress} (he : address.key ∈ K)
    (connectData : Bytes) (uninitialized : UInt8) :
    TouchesOnly K m (m.connect address connectData uninitialized).1 := by
  have hremove := m.removePeerInternal_touches he
  rw [connect]
  split
  · exact .refl m
  · split
    · exact .refl m
    · split
      · exact newOutgoing_touches hm he _ _
      · dsimp only
        split
        · exact .refl m
        · exact hremove.trans (newOutgoing_touches (hremove.known hm) he _ _)

theorem setRequest_touches {q : RequestRef} {request : NetConnectionRequest}
    (hk : (m.requestAt q).remoteEndpoint.key ∈ K)
    (endpoint : request.remoteEndpoint = (m.requestAt q).remoteEndpoint) :
    TouchesOnly K m { m with requestAt := Function.update m.requestAt q request } := by
  have hendpoint : ∀ s, (Function.update m.requestAt q request s).remoteEndpoint =
      (m.requestAt s).remoteEndpoint := by
    intro s
    by_cases hs : s = q
    · rw [hs, Function.update_self, endpoint]
    · rw [Function.update_of_ne hs]
  refine { TouchesOnly.refl (K := K) m with
    requestAt := fun s _ hks => ?_
    remoteEndpoint := fun s _ => hendpoint s
    asked := fun s hs hn => absurd hs (not_lt.mpr hn)
    sent := ⟨[], (List.append_nil _).symm, by simp⟩
    events := ⟨[], (List.append_nil _).symm, by simp⟩
    known := fun hm => ⟨hm.peers, fun k s hs => ?_⟩ }
  · have hs : s ≠ q := by
      rintro rfl
      exact hks hk
    exact Function.update_of_ne hs _ _
  · obtain ⟨hlt, hkey⟩ := hm.requests k s hs
    exact ⟨hlt, (congrArg NetAddress.key (hendpoint s)).trans hkey⟩

theorem newRequest_touches (m : NetManager) {addr : NetAddress} (he : addr.key ∈ K)
    (request : NetConnectRequestPacket) :
    TouchesOnly K m { m with
      requestCount := m.requestCount + 1
      requestAt := Function.update m.requestAt m.requestCount (.new request addr)
      connectionRequests := Function.update m.connectionRequests addr.key
        (some m.requestCount) } := by
  have hold : ∀ q < m.requestCount, Function.update m.requestAt m.requestCount
      (NetConnectionRequest.new request addr) q = m.requestAt q :=
    fun q hq => Function.update_of_ne hq.ne _ _
  refine { TouchesOnly.refl (K := K) m with
    requests := fun k hkn => ?_
    requestCount := Nat.le_succ _
    requestAt := fun q hq _ => hold q hq
    remoteEndpoint := fun q hq => congrArg NetConnectionRequest.remoteEndpoint (hold q hq)
    asked := fun q hq hn => ?_
    sent := ⟨[], (List.append_nil _).symm, by simp⟩
    events := ⟨[], (List.append_nil _).symm, by simp⟩
    known := fun hm => ⟨hm.peers, fun k q hq => ?_⟩ }
  · have hne : k ≠ addr.key := by
      rintro rfl
      exact hkn he
    exact Function.update_of_ne hne _ _
  · have hq' : q = m.requestCount := le_antisymm (Nat.lt_succ_iff.mp hq) hn
    rw [hq']
    dsimp only
    rw [Function.update_self]
    exact he
  · dsimp only at hq ⊢
    by_cases hkey : k = addr.key
    · rw [hkey, Function.update_self] at hq
      rw [← Option.some.inj hq, Function.update_self]
      exact ⟨Nat.lt_succ_self _, hkey.symm⟩
    · rw [Function.update_of_ne hkey] at hq
      obtain ⟨hlt, hkey'⟩ := hm.requests k q hq
      rw [hold q hlt]
      exact ⟨Nat.lt_succ_of_lt hlt, hkey'⟩

theorem eraseRequest_touches (m : NetManager) {k : NetAddress.Key} (hk : k ∈ K) :
    TouchesOnly K m { m with
      connectionRequests := Function.update m.connectionRequests k none } := by
  refine { TouchesOnly.refl (K := K) m with
    requests := fun k' hkn => ?_
    sent := ⟨[], (List.append_nil _).symm, by simp⟩
    events := ⟨[], (List.append_nil _).symm, by simp⟩
    known := fun hm => ⟨hm.peers, fun k' q hq => ?_⟩ }
  · have hne : k' ≠ k := by
      rintro rfl
      exact hkn hk
    exact Function.update_of_ne hne _ _
  · dsimp only at hq
    by_cases hkey : k' = k
    · rw [hkey, Function.update_self] at hq
      cases hq
    · rw [Function.update_of_ne hkey] at hq
      exact hm.requests k' q hq

theorem queueRequest_touches (hm : Known m) {addr : NetAddress} (he : addr.key ∈ K)
    (request : NetConnectRequestPacket) : TouchesOnly K m (m.queueRequest addr request) := by
  rw [queueRequest]
  split
  · next q hq =>
    obtain ⟨-, hkey⟩ := hm.requests _ q hq
    exact setRequest_touches (hkey ▸ he) (updateRequest_spec _ request).1
  · exact (m.newRequest_touches he request).trans (createEvent_touches (fun _ hq => by cases hq))

theorem peerProcessConnectRequest_touches (hm : Known m)
    (hk : (m.peerAt r).endpoint.key ∈ K) (request : NetConnectRequestPacket) :
    TouchesOnly K m (m.peerProcessConnectRequest r request).1 := by
  have hif : ∀ {c : Prop} [Decidable c] (a b : ConnectRequestResult),
      TouchesOnly K m (if c then (m, a) else (m, b)).1 := by
    intro c _ a b
    split <;> exact .refl m
  rw [peerProcessConnectRequest]
  cases (m.peerAt r).connectionState with
  | outgoing =>
    dsimp only
    split
    · exact .refl m
    · exact hif _ _
  | connected =>
    dsimp only
    split
    · split
      · exact .refl m
      · exact sendRaw_touches hm hk _
    · exact hif _ _
  | disconnected => exact hif _ _
  | shutdownRequested => exact hif _ _

theorem processConnectRequest_touches (hm : Known m) {addr : NetAddress} (he : addr.key ∈ K)
    {peer : Option PeerRef} (hpeer : ∀ r, peer = some r → (m.peerAt r).endpoint.key = addr.key)
    (request : NetConnectRequestPacket) :
    TouchesOnly K m (m.processConnectRequest addr peer request) := by
  cases peer with
  | none => exact queueRequest_touches hm he request
  | some r =>
    have hprocessed := peerProcessConnectRequest_touches (K := K) hm (hpeer r rfl ▸ he) request
    rw [processConnectRequest]
    generalize m.peerProcessConnectRequest r request = processed at hprocessed ⊢
    have hdrop : ∀ reason request, TouchesOnly K m
        (((processed.1.disconnectPeerForce addr reason 0 none).removePeerInternal addr).queueRequest
          addr request) := by
      intro reason request
      have hforce := hprocessed.trans
        (disconnectPeerForce_touches (hprocessed.known hm) he reason 0 none)
      have hremove := hforce.trans (removePeerInternal_touches _ he)
      exact hremove.trans (queueRequest_touches (hremove.known hm) he request)
    split
    · exact hdrop _ _
    · have hremove := hprocessed.trans (removePeerInternal_touches _ he)
      exact hremove.trans (queueRequest_touches (hremove.known hm) he _)
    · exact hdrop _ _
    · exact hprocessed.trans (poolRecycle_touches _ _)

theorem newAccepted_touches (hm : Known m) {request : NetConnectionRequest}
    (he : request.remoteEndpoint.key ∈ K) :
    TouchesOnly K m ((m.newAccepted request).addPeer m.peerCount) ∧
      m.peerCount < ((m.newAccepted request).addPeer m.peerCount).peerCount := by
  have hnumbered : TouchesOnly K m m.getNextPeerId.2 := m.getNextPeerId_touches
  rw [newAccepted, ← (Numbered.getNextPeerId m).peerCount]
  exact (register_touches (hnumbered.known hm) he _).imp_left hnumbered.trans

theorem newRejected_touches (hm : Known m) {request : NetConnectionRequest}
    (he : request.remoteEndpoint.key ∈ K) (rejectData : Option Bytes) (offset size : ℕ) :
    TouchesOnly K m
      ((m.newRejected request rejectData offset size).addPeer m.peerCount) := by
  have hnumbered : TouchesOnly K m m.getNextPeerId.2 := m.getNextPeerId_touches
  rw [newRejected, ← (Numbered.getNextPeerId m).peerCount, shutdown_newPeer _ rfl]
  exact hnumbered.trans (register_touches (hnumbered.known hm) he _).1

theorem sendRawAndRecycle_touches (hm : Known m) (he : e.key ∈ K) (packet : NetPacket) :
    TouchesOnly K m (m.sendRawAndRecycle packet e).1 := by
  rw [sendRawAndRecycle]
  exact (sendRaw_touches hm he packet.wire).trans (poolRecycle_touches _ packet)

theorem reply_touches (hm : Known m) (he : e.key ∈ K) (property : PacketProperty) (size : ℕ)
    (fill : NetPacket → NetPacket) :
    TouchesOnly K m ((m.poolGetWithProperty property size).2.sendRawAndRecycle
      (fill (m.poolGetWithProperty property size).1) e).1 := by
  have hgot : TouchesOnly K m (m.poolGetWithProperty property size).2 := m.poolGetPacket_touches _
  exact hgot.trans (sendRawAndRecycle_touches (hgot.known hm) he _)

theorem rejectForce_touches (hm : Known m) {request : NetConnectionRequest}
    (he : request.remoteEndpoint.key ∈ K) (rejectData : Option Bytes) (offset size : ℕ) :
    TouchesOnly K m (m.rejectForce request rejectData offset size) := by
  cases rejectData with
  | none => exact .refl m
  | some data =>
    rw [rejectForce]
    split
    · exact .refl m
    · exact reply_touches hm he .disconnect size (fun packet =>
        if possibleMtu.getD 0 0 ≤ (packet.setConnectionNumber
            request.internalPacket.connectionNumber).size
        then packet.setConnectionNumber request.internalPacket.connectionNumber
        else (packet.setConnectionNumber request.internalPacket.connectionNumber).write 9
          (readBytes data offset size))

theorem onConnectionSolved_touches (hm : Known m) {q : RequestRef}
    (he : (m.requestAt q).remoteEndpoint.key ∈ K) (rejectData : Option Bytes) (offset size : ℕ) :
    TouchesOnly K m (m.onConnectionSolved q rejectData offset size).1 := by
  rw [onConnectionSolved]
  dsimp only
  split
  · exact (rejectForce_touches hm he rejectData offset size).trans (eraseRequest_touches _ he)
  · split
    · exact m.eraseRequest_touches he
    · split
      · exact (newRejected_touches hm he rejectData offset size).trans (eraseRequest_touches _ he)
      · obtain ⟨hadded, hnew⟩ := newAccepted_touches hm he
        refine (hadded.trans (createEvent_touches (fun r hr => ?_))).trans (eraseRequest_touches _ he)
        rw [← Option.some.inj hr]
        exact ⟨hnew, hadded.made _ hnew le_rfl⟩

theorem activate_touches {q : RequestRef} (he : (m.requestAt q).remoteEndpoint.key ∈ K)
    (result : ConnectionRequestResult) : TouchesOnly K m (m.activate q result) :=
  setRequest_touches he rfl

theorem accept_touches (hm : Known m) {q : RequestRef} (hq : q < m.requestCount)
    (he : (m.requestAt q).remoteEndpoint.key ∈ K) : TouchesOnly K m (m.accept q).1 := by
  have hactivate := activate_touches he .accept
  rw [accept]
  split
  · exact .refl m
  · refine hactivate.trans (onConnectionSolved_touches (hactivate.known hm) ?_ none 0 0)
    rw [hactivate.remoteEndpoint q hq]
    exact he

theorem reject_touches (hm : Known m) {q : RequestRef} (hq : q < m.requestCount)
    (he : (m.requestAt q).remoteEndpoint.key ∈ K) (rejectData : Option Bytes) (offset size : ℕ)
    (force : Bool) : TouchesOnly K m (m.reject q rejectData offset size force) := by
  have hactivate := activate_touches he (if force then .rejectForce else .reject)
  rw [reject]
  split
  · exact .refl m
  · refine hactivate.trans
      (onConnectionSolved_touches (hactivate.known hm) ?_ rejectData offset size)
    rw [hactivate.remoteEndpoint q hq]
    exact he

/-- `accept_if_key`, whatever the reader of the request returned. -/
theorem answerKey_touches (hm : Known m) {q : RequestRef} (hq : q < m.requestCount)
    (he : (m.requestAt q).remoteEndpoint.key ∈ K) (key : Option Bytes) (reader : NetDataReader)
    (expectedKey : Bytes) :
    TouchesOnly K m (if key = some expectedKey then
      ({ m with requestAt := Function.update m.requestAt q { m.requestAt q with
          internalPacket.data := reader } }.activate q .accept).onConnectionSolved q none 0 0
      else ((({ m with requestAt := Function.update m.requestAt q { m.requestAt q with
          internalPacket.data := reader } }.activate q .reject).onConnectionSolved q none 0 0).1,
        none)).1 := by
  have hread : TouchesOnly K m { m with
      requestAt := Function.update m.requestAt q { m.requestAt q with
        internalPacket.data := reader } } := setRequest_touches he rfl
  generalize { m with requestAt := Function.update m.requestAt q { m.requestAt q with
    internalPacket.data := reader } } = x at hread ⊢
  have hanswer : ∀ result, TouchesOnly K m
      ((x.activate q result).onConnectionSolved q none 0 0).1 := by
    intro result
    have hactivate : TouchesOnly K m (x.activate q result) :=
      hread.trans (activate_touches (by rw [hread.remoteEndpoint q hq]; exact he) result)
    refine hactivate.trans (onConnectionSolved_touches (hactivate.known hm) ?_ none 0 0)
    rw [hactivate.remoteEndpoint q hq]
    exact he
  by_cases hk : key = some expectedKey
  · rw [if_pos hk]
    exact hanswer .accept
  · rw [if_neg hk]
    exact hanswer .reject

theorem acceptIfKey_touches (hm : Known m) {q : RequestRef} (hq : q < m.requestCount)
    (he : (m.requestAt q).remoteEndpoint.key ∈ K) (expectedKey : Bytes) :
    TouchesOnly K m (m.acceptIfKey q expectedKey).1 := by
  by_cases hu : (m.requestAt q).used
  · rw [acceptIfKey, if_pos hu]
    exact .refl m
  · unfold acceptIfKey
    simp only [if_neg hu]
    generalize (m.requestAt q).internalPacket.data.tryReadString = key
    exact answerKey_touches hm hq he key.1 key.2 expectedKey

theorem onPeerNotFound_touches (hm : Known m) (he : e.key ∈ K)
    (hr : m.tryGetPeer e = some r) (packet : NetPacket) :
    TouchesOnly K m (m.onPeerNotFound r packet e) := by
  obtain ⟨hlt, hk⟩ := found_touches hm he hr
  have hrecycle : TouchesOnly K m (m.poolRecycle packet) := m.poolRecycle_touches packet
  have hset : ∀ p : NetPeer, p.endpoint = (m.peerAt r).endpoint →
      TouchesOnly K m (m.setPeer r p) := fun _ hp => setPeer_touches hk hp
  rw [onPeerNotFound]
  dsimp only
  split_ifs
  · exact hrecycle
  · have hreset := hset (m.peerAt r).resetMtu rfl
    exact hreset.trans (sendRawAndRecycle_touches (hreset.known hm) he _)
  · exact disconnectPeerForce_touches hm hk _ _ _
  · exact hrecycle.trans (reply_touches (hrecycle.known hm) he .peerNotFound 1
      (fun packet => packet.setByte 1 1))
  · exact .refl m

theorem onDisconnect_touches (hm : Known m) (he : e.key ∈ K) {peer : Option PeerRef}
    (hpeer : ∀ r, peer = some r → m.tryGetPeer e = some r) (packet : NetPacket) :
    TouchesOnly K m (m.onDisconnect peer packet e) := by
  have hok : ∀ x, TouchesOnly K m x → TouchesOnly K m
      ((x.poolGetWithProperty .shutdownOk 0).2.sendRawAndRecycle
        (x.poolGetWithProperty .shutdownOk 0).1 e).1 := fun x hx =>
    hx.trans (reply_touches (hx.known hm) he .shutdownOk 0 id)
  cases peer with
  | none => exact hok _ (m.poolRecycle_touches packet)
  | some r =>
    obtain ⟨-, hk⟩ := found_touches hm he (hpeer r rfl)
    rw [onDisconnect]
    cases (m.peerAt r).processDisconnect packet with
    | none => exact m.poolRecycle_touches packet
    | disconnect => exact hok _ (disconnectPeerForce_touches hm hk _ _ _)
    | reject => exact hok _ (disconnectPeerForce_touches hm hk _ _ _)

theorem onConnectAccept_touches (hm : Known m) (he : e.key ∈ K) {peer : Option PeerRef}
    (hpeer : ∀ r, peer = some r → m.tryGetPeer e = some r) (packet : NetPacket) :
    TouchesOnly K m (m.onConnectAccept peer packet) := by
  cases peer with
  | none => exact m.poolRecycle_touches packet
  | some r =>
    obtain ⟨hlt, hk⟩ := found_touches hm he (hpeer r rfl)
    rw [onConnectAccept]
    cases hp : (NetConnectAcceptPacket.fromData packet).bind
        (m.peerAt r).processConnectAccept with
    | none => exact m.poolRecycle_touches packet
    | some p =>
      obtain ⟨accept, -, hprocess⟩ := Option.bind_eq_some_iff.mp hp
      obtain ⟨-, -, -, -, same⟩ := NetPeer.processConnectAccept_spec hprocess
      have hset : TouchesOnly K m (m.setPeer r p) := setPeer_touches hk same.endpoint
      refine (hset.trans (createEvent_touches (fun q hq => ?_))).trans (poolRecycle_touches _ _)
      rw [← Option.some.inj hq, hset.endpoint r hlt]
      exact ⟨hlt, hk⟩

theorem onConnectRequest_touches (hm : Known m) (he : e.key ∈ K) (packet : NetPacket) :
    TouchesOnly K m (m.onConnectRequest (m.tryGetPeer e) packet e) := by
  rw [onConnectRequest]
  split
  · exact (reply_touches hm he .invalidProtocol 0 id).trans (poolRecycle_touches _ packet)
  · split
    · exact m.poolRecycle_touches packet
    · exact processConnectRequest_touches hm he (fun r hr => (hm.peers _ r hr).2) _

theorem onUnconnected_touches (m : NetManager) (enabled : Bool) (type : NetEventType)
    (packet : NetPacket) (addr : NetAddress) :
    TouchesOnly K m (m.onUnconnected enabled type packet addr) := by
  rw [onUnconnected]
  split
  · exact m.poolRecycle_touches packet
  · exact createEvent_touches (fun _ hq => by cases hq)

theorem onSessionPacket_touches (hm : Known m) (he : e.key ∈ K) (packet : NetPacket) :
    TouchesOnly K m (m.onSessionPacket (m.tryGetPeer e) packet e) := by
  cases hr : m.tryGetPeer e with
  | none =>
    have hrecycle : TouchesOnly K m (m.poolRecycle packet) := m.poolRecycle_touches packet
    exact hrecycle.trans (reply_touches (hrecycle.known hm) he .peerNotFound 0 id)
  | some r =>
    obtain ⟨hlt, hk⟩ := found_touches hm he hr
    exact processPacket_touches hm hlt hk packet

theorem onMessageReceived_touches (hm : Known m) (he : e.key ∈ K) (packet : NetPacket) :
    TouchesOnly K m (m.onMessageReceived packet e) := by
  rw [onMessageReceived]
  split
  · exact m.poolRecycle_touches packet
  · dsimp only
    split
    · exact onConnectRequest_touches hm he packet
    · exact m.onUnconnected_touches _ _ packet e
    · exact m.onUnconnected_touches _ _ packet e
    · split
      · exact .refl m
      · next r hr => exact onPeerNotFound_touches hm he hr packet
    · split
      · exact .refl m
      · next r hr =>
        split
        · exact disconnectPeerForce_touches hm (found_touches hm he hr).2 _ _ _
        · exact .refl m
    · exact onDisconnect_touches hm he (fun _ => id) packet
    · exact onConnectAccept_touches hm he (fun _ => id) packet
    · exact onSessionPacket_touches hm he packet

theorem receiveLogic_touches (hm : Known m) (he : e.key ∈ K) (bytes : Bytes) :
    TouchesOnly K m (m.receiveLogic bytes e) := by
  have hget : TouchesOnly K m (m.poolGetPacket maxPacketSize).2 := m.poolGetPacket_touches _
  exact hget.trans (onMessageReceived_touches (hget.known hm) he _)

/-- The walk along the list stays among the peers `P`. -/
theorem updatePeers_touches {P : PeerRef → Prop} {elapsed : ℤ} (fuel : ℕ)
    (hm : Consistent m)
    (hP : ∀ r, P r → r < m.peerCount ∧ (m.peerAt r).endpoint.key ∈ K ∧
      ∀ q, m.nextPeer r = some q → P q) {peer : Option PeerRef} (hpeer : ∀ r, peer = some r → P r) :
    TouchesOnly K m (updatePeers elapsed fuel peer m).1 ∧
      ∀ addr ∈ (updatePeers elapsed fuel peer m).2, addr.key ∈ K := by
  induction fuel generalizing m peer with
  | zero => cases peer <;> exact ⟨.refl m, by simp [updatePeers]⟩
  | succ fuel ih =>
    cases peer with
    | none => exact ⟨.refl m, by simp [updatePeers]⟩
    | some r =>
      obtain ⟨hlt, hk, hnext⟩ := hP r (hpeer r rfl)
      rw [updatePeers]
      dsimp only
      split
      · obtain ⟨htouches, haddrs⟩ := ih hm hP hnext
        refine ⟨htouches, fun addr haddr => ?_⟩
        rcases List.mem_cons.mp haddr with rfl | haddr
        · exact hk
        · exact haddrs addr haddr
      · have hupdate := update_touches hm.known hlt hk elapsed
        have hchanges : Changes fullScope.inSession m (m.update r elapsed) :=
          update_changes (fullScope_open.serving _) ⟨hm, hlt, rfl⟩ trivial elapsed
        have hkept : (m.update r elapsed).nextPeer = m.nextPeer :=
          congrArg Bookkeeping.nextPeer ((Changes.evolves hchanges).kept id)
        have hP' : ∀ q, P q → q < (m.update r elapsed).peerCount ∧
            ((m.update r elapsed).peerAt q).endpoint.key ∈ K ∧
            ∀ q', (m.update r elapsed).nextPeer q = some q' → P q' := by
          intro q hq
          obtain ⟨hqlt, hqk, hqnext⟩ := hP q hq
          rw [hupdate.endpoint q hqlt, hkept]
          exact ⟨hqlt.trans_le hupdate.count, hqk, hqnext⟩
        have hnext' : ∀ q, (m.update r elapsed).nextPeer r = some q → P q := by rwa [hkept]
        obtain ⟨htouches, haddrs⟩ := ih (Changes.consistent hchanges hm) hP' hnext'
        exact ⟨hupdate.trans htouches, haddrs⟩

theorem removePeers_touches (m : NetManager) {addresses : List NetAddress}
    (hk : ∀ addr ∈ addresses, addr.key ∈ K) :
    TouchesOnly K m (addresses.foldl removePeerInternal m) := by
  induction addresses generalizing m with
  | nil => exact .refl m
  | cons addr addresses ih =>
    have hfirst := m.removePeerInternal_touches (hk addr List.mem_cons_self)
    exact hfirst.trans (ih _ (fun a ha => hk a (List.mem_cons_of_mem addr ha)))

/-- The addresses with a peer. -/
def peerKeys (m : NetManager) : Set NetAddress.Key := { k | (m.peers k).isSome = true }

/-- Whoever is in the list is found under its address. -/
theorem peerKeys_of_listed {listed : List PeerRef} (h : InRegistry m listed) {r : PeerRef}
    (hr : r ∈ listed) : r < m.peerCount ∧ (m.peerAt r).endpoint.key ∈ m.peerKeys ∧
      ∀ q, m.nextPeer r = some q → q ∈ listed := by
  refine ⟨h.made r hr, ?_, fun q hq => h.linked.next_mem hr hq⟩
  change (m.peers _).isSome = true
  rw [(h.peers _ r).mpr ⟨hr, rfl⟩, Option.isSome_some]

theorem updateLogic_touches (hm : Consistent m) (hr : Registered m) {elapsed : ℤ} :
    TouchesOnly m.peerKeys m (m.updateLogic elapsed) := by
  obtain ⟨listed, hl⟩ := hr
  have hhead : ∀ r, m.headPeer = some r → r ∈ listed := by
    intro r hr
    rw [hl.linked.head_eq] at hr
    exact List.mem_of_mem_head? hr
  obtain ⟨htouches, haddrs⟩ := updatePeers_touches m.peerCount hm
    (fun r => peerKeys_of_listed hl) hhead
  rw [updateLogic]
  exact htouches.trans (removePeers_touches _ haddrs)

theorem peerAddresses_mem {P : PeerRef → Prop}
    (hP : ∀ r, P r → (m.peerAt r).endpoint.key ∈ K ∧ ∀ q, m.nextPeer r = some q → P q)
    (fuel : ℕ) {peer : Option PeerRef} (hpeer : ∀ r, peer = some r → P r) :
    ∀ addr ∈ m.peerAddresses fuel peer, addr.key ∈ K := by
  induction fuel generalizing peer with
  | zero => cases peer <;> simp [peerAddresses]
  | succ fuel ih =>
    cases peer with
    | none => simp [peerAddresses]
    | some r =>
      obtain ⟨hk, hnext⟩ := hP r (hpeer r rfl)
      rw [peerAddresses]
      intro addr haddr
      rcases List.mem_cons.mp haddr with rfl | haddr
      · exact hk
      · exact ih hnext addr haddr

theorem disconnectAll_touches (hm : Known m) (hr : Registered m) (data : Option Bytes)
    (offset size : ℕ) : TouchesOnly m.peerKeys m (m.disconnectAll data offset size) := by
  obtain ⟨listed, hl⟩ := hr
  have hhead : ∀ r, m.headPeer = some r → r ∈ listed := by
    intro r hr
    rw [hl.linked.head_eq] at hr
    exact List.mem_of_mem_head? hr
  have haddrs := peerAddresses_mem (K := m.peerKeys)
    (fun r hr => (peerKeys_of_listed hl hr).2) m.peerCount hhead
  rw [disconnectAll]
  generalize m.peerKeys = K at haddrs ⊢
  generalize m.peerAddresses m.peerCount m.headPeer = addresses at haddrs
  clear hl hhead
  induction addresses generalizing m with
  | nil => exact .refl m
  | cons addr addresses ih =>
    have hfirst := disconnectPeer_touches hm (haddrs addr List.mem_cons_self) .disconnectPeerCalled 0
      false data offset size none
    exact hfirst.trans (ih (hfirst.known hm) (fun a ha => haddrs a (List.mem_cons_of_mem addr ha)))

theorem recycleEvent_touches (m : NetManager) (event : NetEvent) :
    TouchesOnly K m (m.recycleEvent event) := by
  have hsource : TouchesOnly K m (m.poolRecycleOption event.readerSource) :=
    m.poolRecycleOption_touches _
  rw [recycleEvent]
  split
  · exact hsource
  · exact hsource.trans (poolRecycle_touches _ _)

/-- The addresses that an action is about. -/
def Action.concerns (m : NetManager) : Action → Set NetAddress.Key
  | .receive _ addr => {addr.key}
  | .updateLogic _ => m.peerKeys
  | .recycleEvent _ => ∅
  | .connect address .. => {address.key}
  | .accept q => {(m.requestAt q).remoteEndpoint.key}
  | .acceptIfKey q _ => {(m.requestAt q).remoteEndpoint.key}
  | .reject q .. => {(m.requestAt q).remoteEndpoint.key}
  | .disconnectAll .. => m.peerKeys
  | .send r .. => {(m.peerAt r).endpoint.key}

theorem act_touches (hm : Consistent m) (hr : Registered m) {a : Action} (ha : a.Enabled m) :
    TouchesOnly (a.concerns m) m (m.act a) := by
  cases a with
  | receive bytes addr => exact receiveLogic_touches hm.known (Set.mem_singleton _) bytes
  | updateLogic elapsed => exact updateLogic_touches hm hr
  | recycleEvent event => exact m.recycleEvent_touches event
  | connect address connectData uninitialized =>
    exact connect_touches hm.known (Set.mem_singleton _) connectData uninitialized
  | accept q => exact accept_touches hm.known ha (Set.mem_singleton _)
  | acceptIfKey q expectedKey =>
    exact acceptIfKey_touches hm.known ha (Set.mem_singleton _) expectedKey
  | reject q rejectData offset size force =>
    exact reject_touches hm.known ha (Set.mem_singleton _) ..
  | disconnectAll data offset size => exact disconnectAll_touches hm.known hr data offset size
  | send r data offset size channelNumber deliveryMethod userData =>
    exact sendInternal_touches hm.known ha (Set.mem_singleton _) ..

/-- A step that is not about the address `k`. -/
def SparingStep (k : NetAddress.Key) (m m' : NetManager) : Prop :=
  ∃ a : Action, a.Enabled m ∧ k ∉ a.concerns m ∧ m.act a = m'

theorem SparingStep.step {k : NetAddress.Key} (h : SparingStep k m m') : Step m m' :=
  h.imp (fun _ ⟨enabled, _, act⟩ => ⟨enabled, act⟩)

/-- However many packets of other remotes arrive, and whatever the application does about other
remotes: the peer of an address, its objects, its requests and what was sent to it stay as they
are, and no event is about a peer of it. -/
theorem untouched_of_run {k : NetAddress.Key} (h : Reachable Fresh Step m)
    (hrun : ReflTransGen (SparingStep k) m m') : TouchesOnly {k}ᶜ m m' := by
  induction hrun with
  | refl => exact .refl m
  | @tail x y hrun hs ih =>
    have hx : Reachable Fresh Step x :=
      h.trans (hrun.lift id (fun _ _ hs => SparingStep.step hs))
    obtain ⟨hm, hr, -⟩ := Threads.live_of_reachable hx
    obtain ⟨a, ha, hk, rfl⟩ := hs
    refine ih.trans ((act_touches hm hr ha).mono ?_)
    exact Set.subset_compl_singleton_iff.mpr hk

/-- A stranger's ping is answered to the stranger; the session with the server goes on. -/
theorem untouched_of_run_connectedClient :
    TouchesOnly {(⟨2, 1, 2, 0⟩ : NetAddress).key}ᶜ connectedClient
      (connectedClient.act (.receive (NetPacket.new .ping 0 (by decide)).wire ⟨2, 1, 3, 0⟩)) :=
  untouched_of_run
    (((Reachable.initial (fresh_new _ _ _)).tail ⟨.connect _ _ _, trivial, rfl⟩).tail
      ⟨.receive _ _, show _ ≤ maxPacketSize by decide +kernel, rfl⟩)
    (.single ⟨.receive _ _, show _ ≤ maxPacketSize by decide +kernel,
      show ¬ _ = _ by decide, rfl⟩)

end NetManager

end Operations

end LiteNet.Manager
