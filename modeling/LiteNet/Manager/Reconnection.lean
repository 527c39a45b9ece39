import LiteNet.Manager.Isolation
import LiteNet.Manager.PendingRequests

/-! # The newest request of an address

A peer that is replaced leaves a request behind that waits with the connection number
after its own. While it waits, every connect request of its address that is not older
takes its place, a repetition of the same datagram included, and brings the number that
the remote gave it. So what is accepted is the newest request, whatever its number.
-/

namespace LiteNet.Wire.NetConnectRequestPacket
open Library

/-- What a request asks for: a session of this time and number, and the data that comes with it
unless the packet ends before. -/
structure Asked where
  time : Int64
  number : UInt8
  data : Option Bytes
  deriving DecidableEq

def asks (request : NetConnectRequestPacket) : Asked where
  time := request.connectionTime
  number := request.connectionNumber
  data := if request.data.position ≤ request.data.size then some request.data.rest else none

/-- What a packet asks for, if it is read as a request. -/
def asked (packet : NetPacket) : Option Asked :=
  if packet.verify = true ∧ packet.property = .connectRequest ∧
      getProtocolId packet = .ofNat protocolId then
    (fromData packet).map asks
  else none

variable {packet : NetPacket} {sent : Asked}

/-- What asks for a connection was verified, has the protocol and was parsed. -/
theorem asked_eq_some (h : asked packet = some sent) :
    packet.verify = true ∧ packet.property = .connectRequest ∧
      getProtocolId packet = .ofNat protocolId ∧
      ∃ request, fromData packet = some request ∧ request.asks = sent := by
  rw [asked] at h
  split at h
  · next hpacket =>
    obtain ⟨request, hrequest, hasks⟩ := Option.map_eq_some_iff.mp h
    exact ⟨hpacket.1, hpacket.2.1, hpacket.2.2, request, hrequest, hasks⟩
  · cases h

theorem fromData_eq {request : NetConnectRequestPacket} (h : fromData packet = some request) :
    packet.connectionNumber.toNat < maxConnectionNumber ∧
      (packet.byte (connectRequestHeaderSize - 1)).toNat = NetAddress.rawSize ∧
      request.asks = ⟨packet.getInt64 5, packet.connectionNumber,
        if connectRequestHeaderSize + NetAddress.rawSize ≤ packet.size then
          some (readBytes packet.data (connectRequestHeaderSize + NetAddress.rawSize)
            (packet.size - (connectRequestHeaderSize + NetAddress.rawSize)))
        else none⟩ := by
  rw [fromData] at h
  split at h
  · cases h
  · next hnumber =>
    split at h
    · cases h
    · next hsize =>
      cases h
      exact ⟨not_le.mp hnumber, not_not.mp hsize, rfl⟩

theorem asked_of_wire {q : NetPacket} (h : q.wire = packet.wire)
    (ha : asked packet = some sent) : asked q = some sent := by
  obtain ⟨hverify, hproperty, hprotocol, request, hrequest, hasks⟩ := asked_eq_some ha
  obtain ⟨hlow, hbyte, heq⟩ := fromData_eq hrequest
  have hsize := packet.getHeaderSize_le hverify
  rw [NetPacket.getHeaderSize_of_property hproperty (by decide)] at hsize
  have hsize : connectRequestHeaderSize ≤ packet.size := hsize
  rw [connectRequestHeaderSize] at hsize
  have hpos : 0 < packet.size := by omega
  have hverify' := (NetPacket.verify_of_wire h hpos).trans hverify
  have hproperty' := (NetPacket.property_of_wire h hpos).trans hproperty
  have hprotocol' : getProtocolId q = .ofNat protocolId := by
    rw [getProtocolId, NetPacket.getInt32, NetPacket.getValueAt_of_wire h (by omega)]
    exact hprotocol
  have hlow' : ¬ maxConnectionNumber ≤ q.connectionNumber.toNat := by
    rw [NetPacket.connectionNumber_of_wire h hpos]
    exact not_le.mpr hlow
  have hbyte' : ¬ (q.byte (connectRequestHeaderSize - 1)).toNat ≠ NetAddress.rawSize := by
    rw [NetPacket.byte_of_wire h (by rw [connectRequestHeaderSize]; omega), hbyte]
    exact not_not.mpr rfl
  have hint : q.getInt64 5 = packet.getInt64 5 := by
    rw [NetPacket.getInt64, NetPacket.getValueAt_of_wire h (by omega), NetPacket.getInt64]
  obtain ⟨parsed, hparsed⟩ : ∃ parsed, fromData q = some parsed :=
    ⟨_, by rw [fromData, if_neg hlow', if_neg hbyte']⟩
  rw [asked, if_pos ⟨hverify', hproperty', hprotocol'⟩, hparsed, Option.map_some,
    (fromData_eq hparsed).2.2, hint, NetPacket.connectionNumber_of_wire h hpos,
    NetPacket.size_eq_of_wire h, ← hasks, heq]
  by_cases hlong : connectRequestHeaderSize + NetAddress.rawSize ≤ packet.size
  · rw [if_pos hlong, if_pos hlong, NetPacket.readBytes_of_wire h (by omega)]
  · rw [if_neg hlong, if_neg hlong]

/-- What a packet asks for is written in its bytes. -/
theorem asked_congr {q : NetPacket} (h : q.wire = packet.wire) : asked q = asked packet := by
  apply Option.ext
  exact fun sent => ⟨asked_of_wire h.symm, asked_of_wire h⟩

end LiteNet.Wire.NetConnectRequestPacket

namespace LiteNet.Manager
open Library Wire Relation
open NetConnectRequestPacket (Asked)

/-- `update_request` on what is asked for. -/
def newer (waiting sent : Asked) : Asked :=
  if sent.time < waiting.time then waiting
  else if sent.time = waiting.time ∧ sent.number = waiting.number then waiting
  else sent

theorem NetConnectionRequest.updateRequest_newer (r : NetConnectionRequest)
    (request : NetConnectRequestPacket) :
    (r.updateRequest request).internalPacket.asks = newer r.internalPacket.asks request.asks := by
  rw [updateRequest, newer]
  split
  · next hold => exact (if_pos hold).symm
  · next hold =>
    refine Eq.trans ?_ (if_neg hold).symm
    split
    · next hsame => exact (if_pos hsame).symm
    · next hsame => exact (if_neg hsame).symm

/-- A request of this time replaces the peer. -/
def NetPeer.YieldsTo (p : NetPeer) (time : Int64) : Prop :=
  p.connectionState = .connected ∧ p.connectTime < time ∨
    (p.connectionState = .disconnected ∨ p.connectionState = .shutdownRequested) ∧
      p.connectTime ≤ time

namespace NetManager

/-- What a datagram from the address `k` asks for. -/
def Action.asks (k : NetAddress.Key) : Action → Option Asked
  | .receive bytes addr =>
    if addr.key = k then NetConnectRequestPacket.asked (.received bytes) else none
  | _ => none

/-- The request that waits after an action. -/
def Action.renews (k : NetAddress.Key) (waiting : Asked) (a : Action) : Asked :=
  (a.asks k).elim waiting (newer waiting)

/-- The request `q` waits for an answer to what its address asked for. -/
structure Waits (m : NetManager) (k : NetAddress.Key) (q : RequestRef) (asked : Asked) :
    Prop where
  waiting : m.connectionRequests k = some q
  asked : (m.requestAt q).internalPacket.asks = asked

/-- A scope in which the books stay closed. -/
def closedBooks : Scope :=
  ⟨fun _ _ => True, fun _ _ => False, False, True, False, fun _ => False, fun _ => False, False,
    fun _ => True⟩

section Waiting

variable {m m' : NetManager} {k : NetAddress.Key} {q : RequestRef} {asked : Asked}

theorem Waits.of_same (h : Waits m k q asked)
    (requests : m'.connectionRequests k = m.connectionRequests k)
    (requestAt : m'.requestAt q = m.requestAt q) : Waits m' k q asked := by
  refine ⟨requests.trans h.waiting, ?_⟩
  rw [requestAt]
  exact h.asked

theorem Waits.of_bookkeeping (h : Waits m k q asked) (books : m'.bookkeeping = m.bookkeeping) :
    Waits m' k q asked :=
  h.of_same (congrFun (congrArg Bookkeeping.connectionRequests books) k)
    (congrFun (congrArg Bookkeeping.requestAt books) q)

theorem Changes.bookkeeping (h : Changes closedBooks m m') : m'.bookkeeping = m.bookkeeping :=
  (Changes.evolves h).kept id

theorem sendRawAndRecycle_bookkeeping (m : NetManager) (packet : NetPacket) (addr : NetAddress) :
    (m.sendRawAndRecycle packet addr).1.bookkeeping = m.bookkeeping :=
  Changes.bookkeeping (m.sendRawAndRecycle_changes trivial packet addr trivial)

theorem reply_bookkeeping (m : NetManager) (property : PacketProperty) (size : ℕ)
    (addr : NetAddress) :
    ((m.poolGetWithProperty property size).2.sendRawAndRecycle
      (m.poolGetWithProperty property size).1 addr).1.bookkeeping = m.bookkeeping :=
  (sendRawAndRecycle_bookkeeping _ _ addr).trans (m.poolGetPacket_aside _).bookkeeping

/-- A datagram from an address without a peer is read as a request or leaves the books alone. -/
theorem onMessageReceived_bookkeeping {addr : NetAddress} (hpeer : m.tryGetPeer addr = none)
    {packet : NetPacket} (hother : ¬ (packet.verify = true ∧ packet.property = .connectRequest)) :
    (m.onMessageReceived packet addr).bookkeeping = m.bookkeeping := by
  have hrecycle := (m.poolRecycle_aside packet).bookkeeping
  rw [onMessageReceived, hpeer]
  split
  · exact hrecycle
  · next hv =>
    rw [Bool.not_eq_true, Bool.not_eq_false'] at hv
    have hunconnected (enabled : Bool) (type : NetEventType) :
        (m.onUnconnected enabled type packet addr).bookkeeping = m.bookkeeping := by
      rw [onUnconnected]
      split
      · exact hrecycle
      · rfl
    dsimp only
    split
    · next hp => exact absurd ⟨hv, hp⟩ hother
    · exact hunconnected _ _
    · exact hunconnected _ _
    · rfl
    · rfl
    · exact (reply_bookkeeping _ .shutdownOk 0 addr).trans hrecycle
    · exact hrecycle
    · exact (reply_bookkeeping _ .peerNotFound 0 addr).trans hrecycle

/-- A request that arrives takes the place of the one that waits unless it is older. -/
theorem Waits.onConnectRequest {addr : NetAddress} (h : Waits m addr.key q asked)
    (packet : NetPacket) (hv : packet.verify = true) (hp : packet.property = .connectRequest) :
    Waits (m.onConnectRequest none packet addr) addr.key q
      ((NetConnectRequestPacket.asked packet).elim asked (newer asked)) := by
  rw [NetManager.onConnectRequest, NetConnectRequestPacket.asked]
  split
  · next hprotocol =>
    rw [if_neg (fun hpacket => hprotocol hpacket.2.2)]
    refine h.of_bookkeeping ((poolRecycle_aside _ packet).bookkeeping.trans ?_)
    exact reply_bookkeeping m .invalidProtocol 0 addr
  · next hprotocol =>
    rw [if_pos ⟨hv, hp, not_not.mp hprotocol⟩]
    cases NetConnectRequestPacket.fromData packet with
    | none => exact h.of_bookkeeping (m.poolRecycle_aside packet).bookkeeping
    | some request =>
      change Waits (m.queueRequest addr request) addr.key q (newer asked request.asks)
      rw [queueRequest, h.waiting]
      refine ⟨h.waiting, ?_⟩
      dsimp only
      rw [Function.update_self, NetConnectionRequest.updateRequest_newer, h.asked]

theorem receiveLogic_eq (m : NetManager) (bytes : Bytes) (addr : NetAddress) :
    m.receiveLogic bytes addr =
      (m.poolGetPacket maxPacketSize).2.onMessageReceived (m.receivePacket bytes) addr := rfl

theorem Waits.receive (hm : Consistent m) {addr : NetAddress} (h : Waits m addr.key q asked)
    {bytes : Bytes} (hs : bytes.length ≤ maxPacketSize) :
    Waits (m.receiveLogic bytes addr) addr.key q
      ((NetConnectRequestPacket.asked (.received bytes)).elim asked (newer asked)) := by
  have hget := m.poolGetPacket_aside maxPacketSize
  have hgot := h.of_bookkeeping hget.bookkeeping
  have hpeer : (m.poolGetPacket maxPacketSize).2.tryGetPeer addr = none := by
    rw [tryGetPeer_poolGetPacket, tryGetPeer]
    exact hm.free h.waiting
  have hwire : (m.receivePacket bytes).wire = (NetPacket.received bytes).wire := by
    rw [m.receivePacket_wire hs, NetPacket.wire_received]
  rw [← NetConnectRequestPacket.asked_congr hwire]
  rw [receiveLogic_eq]
  generalize m.receivePacket bytes = packet
  by_cases hrequest : packet.verify = true ∧ packet.property = .connectRequest
  · obtain ⟨hv, hp⟩ := hrequest
    have hreceived := hgot.onConnectRequest packet hv hp
    rw [onMessageReceived, hpeer, hv, hp]
    exact hreceived
  · rw [NetConnectRequestPacket.asked, if_neg (fun hpacket => hrequest ⟨hpacket.1, hpacket.2.1⟩)]
    exact hgot.of_bookkeeping (onMessageReceived_bookkeeping hpeer hrequest)

/-- What is not about the address leaves its request alone. -/
theorem Waits.elsewhere {K : Set NetAddress.Key} (h : Waits m k q asked) (hq : q < m.requestCount)
    (hk : (m.requestAt q).remoteEndpoint.key = k) (hK : k ∉ K) (htouches : TouchesOnly K m m') :
    Waits m' k q asked :=
  h.of_same (htouches.requests k hK) (htouches.requestAt q hq (hk ▸ hK))

/-- The request that waits is renewed by what its address asks for, and by nothing else. -/
theorem Waits.act (hm : Consistent m) (hr : Registered m) (hb : Books (fun _ => False) m)
    (h : Waits m k q asked) {a : Action} (ha : a.Enabled m) (hq : a.answered ≠ some q) :
    Waits (m.act a) k q (a.renews k asked) := by
  obtain ⟨hlt, hkey, -⟩ := hb.waiting k q h.waiting
  have htouches := act_touches hm hr ha
  have haway (hk : k ∉ a.concerns m) : Waits (m.act a) k q asked :=
    h.elsewhere hlt hkey hk htouches
  have hpeer : k ∉ m.peerKeys := by
    intro hk
    obtain ⟨r, hr⟩ := Option.isSome_iff_exists.mp hk
    rw [hm.free h.waiting] at hr
    cases hr
  -- an unanswered request waits under its address, where `q` waits
  have hanswer (q' : RequestRef) (hanswered : a.answered = some q') (hq' : q' < m.requestCount)
      (hconcerns : a.concerns m = {(m.requestAt q').remoteEndpoint.key}) :
      Waits (m.act a) k q asked := by
    by_cases hu : (m.requestAt q').used = true
    · rw [act_of_used hanswered hu]
      exact h
    · rw [Bool.not_eq_true] at hu
      have hwaits := hb.pending q' hq' id hu
      refine haway ?_
      rw [hconcerns]
      intro hk
      rw [← Set.mem_singleton_iff.mp hk, h.waiting, Option.some.injEq] at hwaits
      exact hq (hwaits ▸ hanswered)
  cases a with
  | receive bytes addr =>
    by_cases hk : addr.key = k
    · subst hk
      rw [Action.renews, Action.asks, if_pos rfl]
      exact h.receive hm ha
    · rw [Action.renews, Action.asks, if_neg hk]
      exact haway (fun he => hk (Set.mem_singleton_iff.mp he).symm)
  | updateLogic elapsed => exact haway hpeer
  | recycleEvent event => exact haway (Set.notMem_empty k)
  | connect address connectData uninitialized =>
    by_cases hk : address.key = k
    · have hnone : (m.connect address connectData uninitialized).1 = m := by
        rw [connect, hk, h.waiting, Option.isSome_some, if_pos rfl]
        split <;> rfl
      change Waits (m.connect address connectData uninitialized).1 k q asked
      rw [hnone]
      exact h
    · exact haway (fun he => hk (Set.mem_singleton_iff.mp he).symm)
  | accept q' => exact hanswer q' rfl ha rfl
  | acceptIfKey q' expectedKey => exact hanswer q' rfl ha rfl
  | reject q' rejectData offset size force => exact hanswer q' rfl ha rfl
  | disconnectAll data offset size => exact haway hpeer
  | send r data offset size channelNumber deliveryMethod userData =>
    exact h.of_bookkeeping (Changes.bookkeeping (sendInternal_changes hm ha ..))

end Waiting

/-- The actions can happen one after the other, and none of them answers `q`. -/
def Unanswered (q : RequestRef) : NetManager → List Action → Prop
  | _, [] => True
  | m, a :: as => a.Enabled m ∧ a.answered ≠ some q ∧ Unanswered q (m.act a) as

section Runs

variable {m : NetManager} {k : NetAddress.Key} {q : RequestRef} {asked : Asked}

/-- Over every run the request that waits is the newest that its address asked for. -/
theorem waits_of_run (h : Reachable Fresh Step m) (hw : Waits m k q asked) {as : List Action}
    (has : Unanswered q m as) :
    Reachable Fresh Step (as.foldl NetManager.act m) ∧
      Waits (as.foldl NetManager.act m) k q (as.foldl (Action.renews k) asked) := by
  induction as generalizing m asked with
  | nil => exact ⟨h, hw⟩
  | cons a as ih =>
    obtain ⟨ha, hq, has⟩ := has
    obtain ⟨hm, hr, -⟩ := Threads.live_of_reachable h
    have hb := books_of_reachable (h.of_init (fun _ hfresh => hfresh.toInitial))
    exact ih (h.tail ⟨a, ha, rfl⟩) (hw.act hm hr hb ha hq) has

/-- The constructor that accepts takes time and number from the request. -/
theorem newAccepted_asked {request : NetConnectionRequest}
    (fresh : m.peers request.remoteEndpoint.key = none) :
    let p := ((m.newAccepted request).addPeer m.peerCount).peerAt m.peerCount
    p.connectTime = request.internalPacket.connectionTime ∧
      p.connectNumber = request.internalPacket.connectionNumber := by
  have hnumbered := Numbered.getNextPeerId m
  have hfresh : m.getNextPeerId.2.peers request.remoteEndpoint.key = none := by
    rw [hnumbered.peers]
    exact fresh
  rw [newAccepted, ← hnumbered.peerCount]
  dsimp only
  generalize hp : ({ NetPeer.new m.channelsCount request.remoteEndpoint m.getNextPeerId.1 with
    connectTime := request.internalPacket.connectionTime
    connectNumber := request.internalPacket.connectionNumber
    remoteId := request.internalPacket.peerId
    connectAcceptPacket := some (NetConnectAcceptPacket.make
      request.internalPacket.connectionTime request.internalPacket.connectionNumber
      m.getNextPeerId.1) } : NetPeer) = p
  have hendpoint : p.endpoint = request.remoteEndpoint := by rw [← hp]; rfl
  have hasked : p.connectTime = request.internalPacket.connectionTime ∧
      p.connectNumber = request.internalPacket.connectionNumber := by
    rw [← hp]
    exact ⟨rfl, rfl⟩
  rw [← hendpoint] at hfresh ⊢
  generalize (NetConnectAcceptPacket.make request.internalPacket.connectionTime
    request.internalPacket.connectionNumber m.getNextPeerId.1).wire = bytes
  rw [(newPeer_registers hfresh bytes).1]
  exact hasked

theorem accept_asked (hu : (m.requestAt q).used = false)
    (fresh : m.peers (m.requestAt q).remoteEndpoint.key = none) :
    let p := (m.accept q).1.peerAt m.peerCount
    p.connectTime = (m.requestAt q).internalPacket.connectionTime ∧
      p.connectNumber = (m.requestAt q).internalPacket.connectionNumber := by
  have hn : ¬ (m.requestAt q).used = true := by
    rw [hu]
    exact Bool.false_ne_true
  have hself : (m.activate q .accept).requestAt q =
      { m.requestAt q with used := true, result := .accept } := Function.update_self ..
  have hfresh : (m.activate q .accept).peers (m.requestAt q).remoteEndpoint.key = none := fresh
  have hasked := @newAccepted_asked (m.activate q .accept)
    { m.requestAt q with used := true, result := .accept } hfresh
  rw [accept, if_neg hn, onConnectionSolved, hself]
  dsimp only
  rw [if_neg (by decide), hfresh, Option.isSome_none, if_neg Bool.false_ne_true,
    if_neg (by decide)]
  exact hasked

/-- The peer that an accept connects has the time and the number of the request that waits. -/
theorem Waits.accepted (hw : Waits m k q asked) (h : Reachable Fresh Step m) :
    let p := (m.accept q).1.peerAt m.peerCount
    (m.accept q).2 = some m.peerCount ∧ (m.accept q).1.peers k = some m.peerCount ∧
      p.connectionState = .connected ∧ p.connectTime = asked.time ∧
        p.connectNumber = asked.number := by
  have hinitial := h.of_init (fun _ hfresh => hfresh.toInitial)
  obtain ⟨hlt, hkey, hunused⟩ := (books_of_reachable hinitial).waiting k q hw.waiting
  have hfresh : m.peers (m.requestAt q).remoteEndpoint.key = none := by
    rw [hkey]
    exact (consistent_of_reachable hinitial).free hw.waiting
  obtain ⟨hsome, hconnected, hpeer⟩ := accept_registers (hunused id) hfresh
  rw [hkey] at hpeer
  obtain ⟨htime, hnumber⟩ := accept_asked (hunused id) hfresh
  rw [← hw.asked]
  exact ⟨hsome, hpeer, hconnected, htime, hnumber⟩

/-- Whatever else happens before the answer, the newest request of the address waits, and the peer
that an accept connects has its time and number. -/
theorem newest_accepted (h : Reachable Fresh Step m) (hw : Waits m k q asked) {as : List Action}
    (has : Unanswered q m as) :
    let m' := as.foldl NetManager.act m
    let p := (m'.accept q).1.peerAt m'.peerCount
    let newest := as.foldl (Action.renews k) asked
    Waits m' k q newest ∧ (m'.accept q).2 = some m'.peerCount ∧
      (m'.accept q).1.peers k = some m'.peerCount ∧ p.connectionState = .connected ∧
        p.connectTime = newest.time ∧ p.connectNumber = newest.number := by
  obtain ⟨hreachable, hwaits⟩ := waits_of_run h hw has
  exact ⟨hwaits, hwaits.accepted hreachable⟩

/-- A request that nothing waits for is queued with its own time and number. -/
theorem queueRequest_waits {addr : NetAddress} (h : m.connectionRequests addr.key = none)
    (request : NetConnectRequestPacket) :
    Waits (m.queueRequest addr request) addr.key m.requestCount request.asks := by
  have hself : (m.queueRequest addr request).requestAt m.requestCount = .new request addr := by
    rw [queueRequest, h]
    exact Function.update_self ..
  refine ⟨?_, by rw [hself]; rfl⟩
  rw [queueRequest, h]
  exact Function.update_self ..

theorem removePeerInternal_requests (m : NetManager) (address : NetAddress) :
    (m.removePeerInternal address).connectionRequests = m.connectionRequests := by
  rw [removePeerInternal]
  split <;> rfl

theorem peerProcessConnectRequest_yields {r : PeerRef} {request : NetConnectRequestPacket}
    (h : (m.peerAt r).YieldsTo request.connectionTime) :
    m.peerProcessConnectRequest r request = (m, .reconnection) ∨
      m.peerProcessConnectRequest r request = (m, .newConnection) := by
  rcases h with ⟨hs, ht⟩ | ⟨hs | hs, ht⟩
  · left
    have hne : request.connectionTime ≠ (m.peerAt r).connectTime := by
      intro he
      rw [he] at ht
      exact Int64.lt_irrefl ht
    rw [peerProcessConnectRequest, hs]
    dsimp only
    rw [if_neg hne, if_pos ht]
  · right
    rw [peerProcessConnectRequest, hs]
    exact if_pos ht
  · right
    rw [peerProcessConnectRequest, hs]
    exact if_pos ht

/-- The request that replaces a peer waits with the number after that of the peer. -/
theorem processConnectRequest_waits {addr : NetAddress} {r : PeerRef}
    {request : NetConnectRequestPacket} (hnone : m.connectionRequests addr.key = none)
    (hyields : (m.peerAt r).YieldsTo request.connectionTime) :
    ∃ q, Waits (m.processConnectRequest addr (some r) request) addr.key q
      { request.asks with number := nextConnectionNumber (m.peerAt r).connectNumber } := by
  have hforced (reason : DisconnectReason) :
      ((m.disconnectPeerForce addr reason 0 none).removePeerInternal
        addr).connectionRequests addr.key = none := by
    have hbooks := Changes.bookkeeping
      (m.disconnectPeerForce_changes (S := closedBooks) trivial addr reason 0 none)
    rw [removePeerInternal_requests]
    exact (congrFun (congrArg Bookkeeping.connectionRequests hbooks) _).trans hnone
  rcases m.peerProcessConnectRequest_yields hyields with hprocess | hprocess
  · rw [processConnectRequest, hprocess]
    exact ⟨_, queueRequest_waits (hforced .reconnect) _⟩
  · rw [processConnectRequest, hprocess]
    refine ⟨_, queueRequest_waits ?_ _⟩
    rw [removePeerInternal_requests]
    exact hnone

/-- A datagram that asks for a connection is handled as a request. -/
theorem receive_request {bytes : Bytes} (hs : bytes.length ≤ maxPacketSize)
    (ha : NetConnectRequestPacket.asked (.received bytes) = some asked) (addr : NetAddress) :
    ∃ request : NetConnectRequestPacket, request.asks = asked ∧ m.act (.receive bytes addr) =
      (m.poolGetPacket maxPacketSize).2.processConnectRequest addr (m.tryGetPeer addr) request := by
  have hwire : (m.receivePacket bytes).wire = (NetPacket.received bytes).wire := by
    rw [m.receivePacket_wire hs, NetPacket.wire_received]
  rw [← NetConnectRequestPacket.asked_congr hwire] at ha
  obtain ⟨hverify, hproperty, hprotocol, request, hrequest, rfl⟩ :=
    NetConnectRequestPacket.asked_eq_some ha
  refine ⟨request, rfl, ?_⟩
  rw [act, receiveLogic_eq, onMessageReceived, hverify, hproperty, tryGetPeer_poolGetPacket]
  dsimp only
  rw [Bool.not_true, if_neg Bool.false_ne_true, onConnectRequest,
    if_neg (not_not.mpr hprotocol), hrequest]

/-- A datagram whose request replaces the peer of its address leaves the request waiting. -/
theorem receive_waits (hm : Consistent m) {bytes : Bytes} (hs : bytes.length ≤ maxPacketSize)
    {addr : NetAddress} {r : PeerRef} (hr : m.tryGetPeer addr = some r)
    (ha : NetConnectRequestPacket.asked (.received bytes) = some asked)
    (hyields : (m.peerAt r).YieldsTo asked.time) :
    ∃ q, Waits (m.act (.receive bytes addr)) addr.key q
      { asked with number := nextConnectionNumber (m.peerAt r).connectNumber } := by
  have hget := m.poolGetPacket_aside maxPacketSize
  obtain ⟨request, rfl, hact⟩ := m.receive_request hs ha addr
  have hnone : (m.poolGetPacket maxPacketSize).2.connectionRequests addr.key = none := by
    rw [hget.requests]
    exact hm.separate _ r hr
  rw [hact, hr]
  rw [← hget.peerAt] at hyields ⊢
  exact processConnectRequest_waits hnone hyields

/-- Repetitions of one request bring its number back. -/
theorem renews_repeated {sent : Asked} {as : List Action}
    (hrepeat : ∀ a ∈ as, ∀ asked, a.asks k = some asked → asked = sent) (first : UInt8) :
    as.foldl (Action.renews k) { sent with number := first } =
      { sent with number := if ∃ a ∈ as, a.asks k ≠ none then sent.number else first } := by
  induction as generalizing first with
  | nil => simp
  | cons a as ih =>
    obtain ⟨ha, has⟩ := List.forall_mem_cons.mp hrepeat
    rw [List.foldl_cons]
    cases hasks : a.asks k with
    | none =>
      rw [Action.renews, hasks, Option.elim_none, ih has]
      simp [hasks]
    | some asked =>
      have hsame := ha asked hasks
      have hnewer : newer { sent with number := first } sent = sent := by
        rw [newer, if_neg Int64.lt_irrefl]
        split
        · next hsame =>
          have hnumber : sent.number = first := hsame.2
          rw [← hnumber]
        · rfl
      have hself := ih has sent.number
      rw [ite_self] at hself
      rw [Action.renews, hasks, Option.elim_some, hsame, hnewer]
      refine hself.trans ?_
      rw [if_pos ⟨a, List.mem_cons_self, by rw [hasks]; exact Option.some_ne_none _⟩]

theorem nextConnectionNumber_ne (n : UInt8) : nextConnectionNumber n ≠ n := by
  have hlt := (UInt8.toNat_lt n)
  intro he
  have hnat := congrArg UInt8.toNat he
  rw [nextConnectionNumber, maxConnectionNumber, UInt8.toNat_ofNat'] at hnat
  omega

/-- After a request has replaced the peer of its address, only the repetition of requests lets the
new session have the number of the old one: it does so exactly if the same request arrives again
before the answer and was sent with that number. -/
theorem number_reused_iff (h : Reachable Fresh Step m) {bytes : Bytes}
    (hs : bytes.length ≤ maxPacketSize) {addr : NetAddress} {r : PeerRef}
    (hr : m.tryGetPeer addr = some r) {sent : Asked}
    (ha : NetConnectRequestPacket.asked (.received bytes) = some sent)
    (hyields : (m.peerAt r).YieldsTo sent.time) :
    ∃ q, (m.act (.receive bytes addr)).connectionRequests addr.key = some q ∧
      ∀ as, Unanswered q (m.act (.receive bytes addr)) as →
        (∀ a ∈ as, ∀ asked, a.asks addr.key = some asked → asked = sent) →
          let m' := as.foldl NetManager.act (m.act (.receive bytes addr))
          (m'.accept q).2 = some m'.peerCount ∧
            (((m'.accept q).1.peerAt m'.peerCount).connectNumber = (m.peerAt r).connectNumber ↔
              sent.number = (m.peerAt r).connectNumber ∧ ∃ a ∈ as, a.asks addr.key ≠ none) := by
  obtain ⟨hm, -, -⟩ := Threads.live_of_reachable h
  obtain ⟨q, hwaits⟩ := receive_waits hm hs hr ha hyields
  refine ⟨q, hwaits.waiting, fun as has hrepeat => ?_⟩
  have hreachable : Reachable Fresh Step (m.act (.receive bytes addr)) :=
    h.tail ⟨.receive bytes addr, hs, rfl⟩
  obtain ⟨hlater, hrenewed⟩ := waits_of_run hreachable hwaits has
  obtain ⟨hsome, -, -, -, hnumber⟩ := hrenewed.accepted hlater
  refine ⟨hsome, ?_⟩
  rw [renews_repeated hrepeat] at hnumber
  rw [hnumber]
  dsimp only
  by_cases hagain : ∃ a ∈ as, a.asks addr.key ≠ none
  · rw [if_pos hagain]
    exact ⟨fun he => ⟨he, hagain⟩, And.left⟩
  · rw [if_neg hagain]
    exact ⟨fun he => absurd he (nextConnectionNumber_ne _), fun he => absurd he.2 hagain⟩

end Runs

theorem askedServer_fresh : Reachable Fresh Step askedServer :=
  (Reachable.initial (fresh_new _ _ _)).tail
    ⟨.receive _ _, show _ ≤ maxPacketSize by decide +kernel, rfl⟩

/-- The client asks again, later but with the number that it had. -/
def restart : Action :=
  .receive (NetConnectRequestPacket.make [] ⟨2, 1, 2, 0⟩ 6 0).wire ⟨2, 1, 3, 0⟩

theorem restart_enabled (m : NetManager) : restart.Enabled m :=
  show _ ≤ maxPacketSize by decide +kernel

theorem restart_asks : restart.asks (⟨2, 1, 3, 0⟩ : NetAddress).key = some ⟨6, 0, some []⟩ := by
  decide +kernel

/-- Before it is answered, its second request takes the place of the first. -/
theorem newest_accepted_askedServer :
    let m := askedServer.act restart
    Waits m (⟨2, 1, 3, 0⟩ : NetAddress).key 0 ⟨6, 0, some []⟩ ∧
      (m.accept 0).2 = some m.peerCount ∧ ((m.accept 0).1.peerAt m.peerCount).connectTime = 6 := by
  have hwaits : Waits askedServer (⟨2, 1, 3, 0⟩ : NetAddress).key 0 ⟨5, 0, some []⟩ :=
    ⟨by decide +kernel, by decide +kernel⟩
  have hrun : Unanswered 0 askedServer [restart] :=
    ⟨restart_enabled _, (fun h => by cases h), trivial⟩
  have hrenewed : [restart].foldl (Action.renews (⟨2, 1, 3, 0⟩ : NetAddress).key) ⟨5, 0, some []⟩ =
      ⟨6, 0, some []⟩ := by decide +kernel
  obtain ⟨hnewest, hsome, -, -, htime, -⟩ := newest_accepted askedServer_fresh hwaits hrun
  rw [hrenewed] at hnewest
  exact ⟨hnewest, hsome, htime.trans (congrArg Asked.time hrenewed)⟩

/-- A server that has a session with the client. -/
def acceptedServer : NetManager := askedServer.act (.accept 0)

theorem acceptedServer_fresh : Reachable Fresh Step acceptedServer :=
  askedServer_fresh.tail ⟨.accept 0, show 0 < askedServer.requestCount by decide +kernel, rfl⟩

/-- A second datagram of the restarted client, and its new session has the number of the old one. -/
theorem number_reused_iff_acceptedServer :
    ∃ q, (acceptedServer.act restart).connectionRequests (⟨2, 1, 3, 0⟩ : NetAddress).key =
        some q ∧
      let m := (acceptedServer.act restart).act restart
      ((m.accept q).1.peerAt m.peerCount).connectNumber =
        (acceptedServer.peerAt 0).connectNumber := by
  have hyields : (acceptedServer.peerAt 0).YieldsTo 6 :=
    .inl ⟨by decide +kernel, by decide +kernel⟩
  have hpeer : acceptedServer.tryGetPeer ⟨2, 1, 3, 0⟩ = some 0 := by decide +kernel
  obtain ⟨q, hq, hrun⟩ := number_reused_iff acceptedServer_fresh (restart_enabled acceptedServer)
    hpeer restart_asks hyields
  have hrepeat : ∀ a ∈ [restart], ∀ asked, a.asks (⟨2, 1, 3, 0⟩ : NetAddress).key = some asked →
      asked = ⟨6, 0, some []⟩ := by
    intro a ha asked hasked
    rw [List.mem_singleton.mp ha, restart_asks, Option.some.injEq] at hasked
    exact hasked.symm
  have hagain : ∃ a ∈ [restart], a.asks (⟨2, 1, 3, 0⟩ : NetAddress).key ≠ none :=
    ⟨restart, List.mem_singleton_self _, by rw [restart_asks]; exact Option.some_ne_none _⟩
  have hlast := hrun [restart] ⟨restart_enabled _, (fun h => by cases h), trivial⟩ hrepeat
  exact ⟨q, hq, hlast.2.mpr ⟨by decide +kernel, hagain⟩⟩

end NetManager

end LiteNet.Manager
