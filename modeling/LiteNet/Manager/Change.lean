import LiteNet.Channels.Addressed
import LiteNet.Library.LinkedList
import LiteNet.Manager.State
import LiteNet.Wire.Header

/-! # The changes a manager is made of

Every function of the manager and of its peers is a sequence of a few kinds of
changes: packets are sent, events queued, sessions begun and ended. What a single
change can do is said once here, with the parts that depend on the caller (what may
be sent, which accept a packet may carry, whether sessions may end or begin) as a
scope. Invariants are proved for one change and hold for every sequence.
-/

namespace LiteNet.Manager
open Library Wire Channels Relation

def NetChannel.UserPackets : NetChannel → Prop
  | .reliable ch => ch.UserPackets
  | .sequenced ch => ch.UserPackets

def NetChannel.Addressed (idx : UInt8) : NetChannel → Prop
  | .reliable ch => ch.Addressed idx
  | .sequenced ch => ch.Addressed idx

/-- The header of a user packet with the number `n`. -/
def UserHeader (n : UInt8) (bytes : Bytes) : Prop :=
  (headerProperty bytes = .unreliable ∨ headerProperty bytes = .channeled ∨
    headerProperty bytes = .ack) ∧ headerNumber bytes = n &&& 3

/-- The fields of a peer that say who it is, how long it has heard nothing, and what it sends. -/
structure Session where
  id : ℕ
  timeSinceLastPacket : ℤ
  endpoint : NetAddress
  connectionState : ConnectionState
  connectTime : Int64
  connectNumber : UInt8
  connectRequestPacket : Option NetPacket
  connectAcceptPacket : Option NetPacket
  shutdownPacket : NetPacket
  pingPacket : NetPacket
  pongPacket : NetPacket
  unreliableChannel : List NetPacket
  channelCount : ℕ
  channels : UInt8 → Option NetChannel
  deliveredFragments : ℕ → Option ℕ
  mergeData : NetPacket
  mergePos : ℕ
  mergeCount : ℕ

def NetPeer.session (p : NetPeer) : Session where
  id := p.id
  timeSinceLastPacket := p.timeSinceLastPacket
  endpoint := p.endpoint
  connectionState := p.connectionState
  connectTime := p.connectTime
  connectNumber := p.connectNumber
  connectRequestPacket := p.connectRequestPacket
  connectAcceptPacket := p.connectAcceptPacket
  shutdownPacket := p.shutdownPacket
  pingPacket := p.pingPacket
  pongPacket := p.pongPacket
  unreliableChannel := p.unreliableChannel
  channelCount := p.channelCount
  channels := p.channels
  deliveredFragments := p.deliveredFragments
  mergeData := p.mergeData
  mergePos := p.mergePos
  mergeCount := p.mergeCount

@[simp] theorem NetPeer.updateRoundtripTime_session (p : NetPeer) (roundTripTime : ℤ) :
    (p.updateRoundtripTime roundTripTime).session = p.session := rfl

/-- The long-lived packets of a session have the headers they were built with, its channels are those
of their indices, and a packet that was gathered alone carries the number of the session. -/
structure Session.WellFormed (s : Session) : Prop where
  ping : s.pingPacket.Unstamped .ping
  pong : s.pongPacket.Unstamped .pong
  merge : s.mergeData.Unstamped .merged
  mergeBuffer : maxPacketSize ≤ s.mergeData.bufferSize
  shutdown : s.shutdownPacket.property = .disconnect ∧ 1 ≤ s.shutdownPacket.size
  request : ∀ p, s.connectRequestPacket = some p → p.property = .connectRequest ∧ 1 ≤ p.size
  accept : ∀ p, s.connectAcceptPacket = some p → s.connectionState ≠ .outgoing ∧
    ∃ id, p = NetConnectAcceptPacket.make s.connectTime s.connectNumber id
  unreliable : ∀ p ∈ s.unreliableChannel, UserPacket p
  channelCount : channelTypeCount ∣ s.channelCount
  channels : ∀ idx ch, s.channels idx = some ch → ch.UserPackets ∧ ch.Addressed idx
  /-- No message is ever entered for its acknowledged fragments to be counted. -/
  delivered : ∀ fragmentId, s.deliveredFragments fragmentId = none
  mergeEmpty : s.mergeCount = 0 → s.mergePos = 0
  mergeSingle : s.mergeCount = 1 → s.connectionState ≠ .outgoing ∧
    UserHeader s.connectNumber
      (readBytes s.mergeData.data (headerSize + 2) (s.mergePos - 2))
  /-- The packet of the handshake that a session was begun with is kept. -/
  outgoing : s.connectionState = .outgoing → s.connectRequestPacket.isSome = true
  connected : s.connectionState = .connected →
    s.connectRequestPacket.isSome = true ∨ s.connectAcceptPacket.isSome = true
  oneOrigin : s.connectRequestPacket.isSome = true → s.connectAcceptPacket = none

/-- What a session sends: packets of the user carry its number, pings, pongs, MTU checks and merged
packets carry none. -/
def SessionDatagram (n : UInt8) (d : Datagram) : Prop :=
  match headerProperty d.bytes with
  | .unreliable | .channeled | .ack | .mtuOk => headerNumber d.bytes = n &&& 3
  | .ping | .pong | .merged | .mtuCheck => headerNumber d.bytes = 0
  | .connectAccept => False
  | _ => True

theorem UserHeader.sessionDatagram {n : UInt8} {d : Datagram} (h : UserHeader n d.bytes) :
    SessionDatagram n d := by
  obtain ⟨hp, hn⟩ := h
  rw [SessionDatagram]
  rcases hp with hp | hp | hp <;> rw [hp] <;> exact hn

/-- The moves between the states of a connection: forward only, and staying counts as none. -/
inductive Moves : ConnectionState → ConnectionState → Prop
  | stay (s) : Moves s s
  | establish : Moves .outgoing .connected
  | shutdown {s} (h : s = .outgoing ∨ s = .connected) : Moves s .shutdownRequested
  | disconnect {s} (h : s = .outgoing ∨ s = .connected) : Moves s .disconnected
  | finish : Moves .shutdownRequested .disconnected

theorem Moves.trans {a b c : ConnectionState} (h : Moves a b) (h' : Moves b c) : Moves a c := by
  cases h with
  | stay => exact h'
  | establish =>
    cases h' with
    | stay => exact .establish
    | shutdown => exact .shutdown (.inl rfl)
    | disconnect => exact .disconnect (.inl rfl)
  | shutdown h =>
    cases h' with
    | stay => exact .shutdown h
    | shutdown => exact .shutdown h
    | disconnect => exact .disconnect h
    | finish => exact .disconnect h
  | disconnect h =>
    cases h' with
    | stay => exact .disconnect h
    | shutdown h' => exact absurd h' (by decide)
    | disconnect => exact .disconnect h
  | finish =>
    cases h' with
    | stay => exact .finish
    | shutdown h' => exact absurd h' (by decide)
    | disconnect => exact .finish

theorem Moves.not_outgoing {a b : ConnectionState} (h : Moves a b) (ha : a ≠ .outgoing) :
    b ≠ .outgoing := by
  cases h with
  | stay => exact ha
  | _ => decide

theorem Moves.disconnected {a b : ConnectionState} (h : Moves a b) (ha : a = .disconnected) :
    b = .disconnected := by
  cases h with
  | stay => exact ha
  | establish => cases ha
  | shutdown h => exact absurd (ha ▸ h) (by decide)
  | disconnect => rfl
  | finish => rfl

/-- The events that say something about a session. -/
def NetEvent.About (e : NetEvent) (r : PeerRef) : Prop :=
  e.peer = some r ∧ (e.type = .connect ∨ e.type = .disconnect ∨ e.type = .receive ∨
    e.type = .connectionLatencyUpdated)

/-- What the listener is handed for an event of this type is there. -/
def NetEvent.Complete (e : NetEvent) : Prop :=
  match e.type with
  | .connect | .disconnect | .connectionLatencyUpdated | .messageDelivered => e.peer.isSome = true
  | .receive => e.peer.isSome = true ∧ e.reader.isSome = true
  | .receiveUnconnected | .broadcast => e.reader.isSome = true
  | .networkError => e.errorMessage.isSome = true
  | .connectionRequest => e.connectionRequest.isSome = true

/-- An event as it is queued: complete, and without user data. -/
structure NetEvent.Filled (e : NetEvent) : Prop where
  userData : e.userData = 0
  complete : e.Complete

theorem NetEvent.filled_of_peer {e : NetEvent} {r : PeerRef}
    (type : e.type = .connect ∨ e.type = .disconnect) (peer : e.peer = some r)
    (plain : e.userData = 0) : e.Filled := by
  refine ⟨plain, ?_⟩
  rw [Complete]
  rcases type with ht | ht <;> rw [ht] <;> exact Option.isSome_of_eq_some peer

/-- What depends on who makes a change: what may be sent in a state, the time and number of the
accept that may establish a session, whether a session that is not yet established may report
data, whether sessions may end, whether peers may come and go, with which numbers they begin,
which requests are being answered, whether peers go only once their sessions have ended, and for
which peers time passes. -/
structure Scope where
  emits : NetManager → Datagram → Prop
  accepts : Int64 → UInt8 → Prop
  early : Prop
  closes : Prop
  registers : Prop
  opens : UInt8 → Prop
  answers : RequestRef → Prop
  orderly : Prop
  elapses : PeerRef → Prop

/-- A new state of a peer that keeps its identity. -/
structure SameIdentity (p p' : NetPeer) : Prop where
  id : p'.id = p.id
  endpoint : p'.endpoint = p.endpoint
  connectTime : p'.connectTime = p.connectTime
  connectAcceptPacket : p'.connectAcceptPacket = p.connectAcceptPacket
  wellFormed : p.session.WellFormed → p'.session.WellFormed

/-- The list of peers holds objects that exist. -/
structure Listed (m : NetManager) : Prop where
  head : ∀ r, m.headPeer = some r → r < m.peerCount
  next : ∀ q r, m.nextPeer q = some r → r < m.peerCount

/-- The five structures of the registry agree on the peers in `listed`. -/
structure InRegistry (m : NetManager) (listed : List PeerRef) : Prop where
  linked : DoublyLinked m.nextPeer m.prevPeer m.headPeer listed
  made : ∀ r ∈ listed, r < m.peerCount
  unlinked : ∀ r, m.peerCount ≤ r → m.nextPeer r = none ∧ m.prevPeer r = none
  peers : ∀ k r, m.peers k = some r ↔ r ∈ listed ∧ (m.peerAt r).endpoint.key = k
  array : ∀ i r, m.peersArray i = some r ↔ r ∈ listed ∧ (m.peerAt r).id = i
  ids : (listed.map (fun r => (m.peerAt r).id) ++ m.peerIds).Perm (List.range m.peerIdCounter)

def Registered (m : NetManager) : Prop := ∃ listed, InRegistry m listed

/-- Peers that take part in a session are the ones found under their addresses. -/
def Live (m : NetManager) : Prop :=
  ∀ r < m.peerCount, (m.peerAt r).isConnected = true →
    m.peers (m.peerAt r).endpoint.key = some r

/-- Requests that wait are unanswered ones and wait under their address, those in `answering`
apart. -/
structure Books (answering : RequestRef → Prop) (m : NetManager) : Prop where
  waiting : ∀ k q, m.connectionRequests k = some q → q < m.requestCount ∧
    (m.requestAt q).remoteEndpoint.key = k ∧ (¬ answering q → (m.requestAt q).used = false)
  pending : ∀ q < m.requestCount, ¬ answering q → (m.requestAt q).used = false →
    m.connectionRequests (m.requestAt q).remoteEndpoint.key = some q
  number : ∀ q < m.requestCount,
    (m.requestAt q).internalPacket.connectionNumber.toNat < maxConnectionNumber

/-- What the registry and the waiting requests are made of. -/
structure Bookkeeping where
  peers : NetAddress.Key → Option PeerRef
  headPeer : Option PeerRef
  nextPeer : PeerRef → Option PeerRef
  prevPeer : PeerRef → Option PeerRef
  peersArray : ℕ → Option PeerRef
  peerIds : List ℕ
  peerIdCounter : ℕ
  requestCount : ℕ
  requestAt : RequestRef → NetConnectionRequest
  connectionRequests : NetAddress.Key → Option RequestRef

def NetManager.bookkeeping (m : NetManager) : Bookkeeping where
  peers := m.peers
  headPeer := m.headPeer
  nextPeer := m.nextPeer
  prevPeer := m.prevPeer
  peersArray := m.peersArray
  peerIds := m.peerIds
  peerIdCounter := m.peerIdCounter
  requestCount := m.requestCount
  requestAt := m.requestAt
  connectionRequests := m.connectionRequests

structure SameObjects (m m' : NetManager) : Prop where
  peerCount : m'.peerCount = m.peerCount
  peerAt : m'.peerAt = m.peerAt
  events : m'.events = m.events
  sent : m'.sent = m.sent
  pool : ∀ p ∈ m'.packetPool, p ∈ m.packetPool ∨ Pooled p
  disconnectTimeout : m'.disconnectTimeout = m.disconnectTimeout

/-- Only clocks and the pool differ. -/
structure Aside (m m' : NetManager) : Prop extends SameObjects m m' where
  bookkeeping : m'.bookkeeping = m.bookkeeping

/-- Requests stay where they are, and an answered one stays answered. -/
structure KeepsRequests (m m' : NetManager) : Prop where
  count : m.requestCount ≤ m'.requestCount
  endpoint : ∀ q < m.requestCount,
    (m'.requestAt q).remoteEndpoint = (m.requestAt q).remoteEndpoint
  used : ∀ q < m.requestCount, (m.requestAt q).used = true → (m'.requestAt q).used = true

/-- Changed books are in order if they were; requests are answered in the scope only. -/
structure KeepsBooks (S : Scope) (m m' : NetManager) : Prop where
  listed : Listed m → Listed m'
  registered : Registered m → Registered m'
  books : ∀ answering : RequestRef → Prop, (∀ q, S.answers q → answering q) →
    Books answering m → Books answering m'
  requests : KeepsRequests m m'
  live : S.orderly → Live m → Live m'

inductive Change (S : Scope) : NetManager → NetManager → Prop
  | aside {m m'} (h : Aside m m') : Change S m m'
  /-- A peer leaves the registry, or a request is queued for an address without a peer. -/
  | register {m m'} (same : SameObjects m m') (registers : S.registers)
      (peers : ∀ k r, m'.peers k = some r → m.peers k = some r)
      (requests : ∀ k r, m'.peers k = some r → m.connectionRequests k = none →
        m'.connectionRequests k = none) (keeps : KeepsBooks S m m') : Change S m m'
  | touch {m} (r) {p} (same : SameIdentity (m.peerAt r) p)
      (state : p.connectionState = (m.peerAt r).connectionState)
      (number : p.connectNumber = (m.peerAt r).connectNumber)
      (idle : (m.peerAt r).connectionState = .disconnected → ¬ S.elapses r →
        p.timeSinceLastPacket = (m.peerAt r).timeSinceLastPacket) : Change S m (m.setPeer r p)
  | emit {m} (d) (emits : S.emits m d) : Change S m (m.logSent d)
  | note {m} (e) (about : ∀ r, ¬ NetEvent.About e r) (plain : e.Filled) :
      Change S m (m.pushEvent e)
  | report {m} (r e) (peer : e.peer = some r)
      (type : e.type = .receive ∨ e.type = .connectionLatencyUpdated)
      (state : (m.peerAt r).connectionState = .connected ∨ S.early)
      (known : ∃ k, m.peers k = some r) (plain : e.Filled) : Change S m (m.pushEvent e)
  /-- A session ends: what is sent and noted on the way, then the event. -/
  | close {m m'} (r) (p ds notes e) (closes : S.closes)
      (same : SameIdentity (m.peerAt r) p) (number : p.connectNumber = (m.peerAt r).connectNumber)
      (before : (m.peerAt r).connectionState = .outgoing ∨
        (m.peerAt r).connectionState = .connected)
      (after : p.connectionState = .shutdownRequested ∨ p.connectionState = .disconnected)
      (emits : ∀ d ∈ ds, S.emits m d) (about : ∀ e ∈ notes, ∀ r, ¬ NetEvent.About e r)
      (type : e.type = .disconnect) (peer : e.peer = some r)
      (result : Aside { m.setPeer r p with
        sent := m.sent ++ ds, events := m.events ++ notes ++ [e] } m')
      (known : ∃ k, m.peers k = some r) (plain : ∀ n ∈ notes ++ [e], n.Filled) :
      Change S m m'
  | finish {m} (r) (closes : S.closes)
      (before : (m.peerAt r).connectionState = .shutdownRequested) :
      Change S m (m.setPeer r { m.peerAt r with connectionState := .disconnected })
  | establish {m} (r) (p e) (same : SameIdentity (m.peerAt r) p)
      (accepts : S.accepts p.connectTime p.connectNumber)
      (before : (m.peerAt r).connectionState = .outgoing)
      (after : p.connectionState = .connected) (type : e.type = .connect) (peer : e.peer = some r)
      (known : ∃ k, m.peers k = some r) (plain : e.Filled) :
      Change S m ((m.setPeer r p).pushEvent e)
  /-- A new object is registered; when a request is accepted, with its event. -/
  | create {m m'} (p ds notes es) (registers : S.registers) (opens : S.opens p.connectNumber)
      (wellFormed : p.session.WellFormed) (emits : ∀ d ∈ ds, S.emits m' d)
      (about : ∀ e ∈ notes, ∀ r, ¬ NetEvent.About e r)
      (announce : es = [] ∧ p.connectionState ≠ .connected ∨
        p.connectionState = .connected ∧ ∃ e : NetEvent, es = [e] ∧ e.type = .connect ∧
          e.peer = some m.peerCount)
      (result : SameObjects { m with
        peerCount := m.peerCount + 1
        peerAt := Function.update m.peerAt m.peerCount p
        sent := m.sent ++ ds
        events := m.events ++ notes ++ es } m')
      (peers : ∀ k, m'.peers k = if k = p.endpoint.key then some m.peerCount else m.peers k)
      (own : m'.connectionRequests p.endpoint.key = none)
      (others : ∀ k, m.connectionRequests k = none → m'.connectionRequests k = none)
      (keeps : KeepsBooks S m m') (plain : ∀ e ∈ notes ++ es, e.Filled)
      (begun : p.connectionState = .connected → p.connectAcceptPacket.isSome = true) :
      Change S m m'

abbrev Changes (S : Scope) : NetManager → NetManager → Prop := ReflTransGen (Change S)

theorem SameIdentity.refl (p : NetPeer) : SameIdentity p p :=
  ⟨rfl, rfl, rfl, rfl, fun hw => hw⟩

/-- The objects of a manager are well formed, the registry knows its peers by their address, and
no request waits for an address that has a peer. -/
structure Consistent (m : NetManager) : Prop where
  wellFormed : ∀ r < m.peerCount, (m.peerAt r).session.WellFormed
  pool : ∀ p ∈ m.packetPool, Pooled p
  registered : ∀ k r, m.peers k = some r → r < m.peerCount ∧ (m.peerAt r).endpoint.key = k
  separate : ∀ k r, m.peers k = some r → m.connectionRequests k = none
  listed : Listed m
  books : Books (fun _ => True) m

section Consistent

variable {m m' : NetManager}

theorem SameObjects.refl (m : NetManager) : SameObjects m m :=
  ⟨rfl, rfl, rfl, rfl, fun _ => .inl, rfl⟩

theorem Aside.refl (m : NetManager) : Aside m m := ⟨.refl m, rfl⟩

theorem SameObjects.trans {m'' : NetManager} (h : SameObjects m m') (h' : SameObjects m' m'') :
    SameObjects m m'' where
  peerCount := h'.peerCount.trans h.peerCount
  peerAt := h'.peerAt.trans h.peerAt
  events := h'.events.trans h.events
  sent := h'.sent.trans h.sent
  pool := fun p hp => (h'.pool p hp).elim (h.pool p) .inr
  disconnectTimeout := h'.disconnectTimeout.trans h.disconnectTimeout

theorem Aside.trans {m'' : NetManager} (h : Aside m m') (h' : Aside m' m'') : Aside m m'' :=
  ⟨h.toSameObjects.trans h'.toSameObjects, h'.bookkeeping.trans h.bookkeeping⟩

theorem Aside.peers (h : Aside m m') : m'.peers = m.peers := congrArg Bookkeeping.peers h.bookkeeping

theorem Aside.requests (h : Aside m m') : m'.connectionRequests = m.connectionRequests :=
  congrArg Bookkeeping.connectionRequests h.bookkeeping

theorem Listed.of_bookkeeping (hl : Listed m) (count : m'.peerCount = m.peerCount)
    (books : m'.bookkeeping = m.bookkeeping) : Listed m' where
  head := by
    have hhead : m'.headPeer = m.headPeer := congrArg Bookkeeping.headPeer books
    rw [count, hhead]
    exact hl.head
  next := by
    have hnext : m'.nextPeer = m.nextPeer := congrArg Bookkeeping.nextPeer books
    rw [count, hnext]
    exact hl.next

theorem Books.congr {answering : RequestRef → Prop} (hb : Books answering m)
    (count : m'.requestCount = m.requestCount) (requestAt : m'.requestAt = m.requestAt)
    (requests : m'.connectionRequests = m.connectionRequests) : Books answering m' := by
  refine ⟨?_, ?_, ?_⟩
  · rw [count, requestAt, requests]
    exact hb.waiting
  · rw [count, requestAt, requests]
    exact hb.pending
  · rw [count, requestAt]
    exact hb.number

theorem KeepsRequests.of_eq (count : m'.requestCount = m.requestCount)
    (requestAt : m'.requestAt = m.requestAt) : KeepsRequests m m' where
  count := count.ge
  endpoint := fun q _ => by rw [requestAt]
  used := fun q _ hu => by rw [requestAt, hu]

theorem KeepsRequests.trans {m'' : NetManager} (h : KeepsRequests m m')
    (h' : KeepsRequests m' m'') : KeepsRequests m m'' where
  count := h.count.trans h'.count
  endpoint := fun q hq => (h'.endpoint q (hq.trans_le h.count)).trans (h.endpoint q hq)
  used := fun q hq hu => h'.used q (hq.trans_le h.count) (h.used q hq hu)

theorem Books.of_bookkeeping {answering : RequestRef → Prop} (hb : Books answering m)
    (books : m'.bookkeeping = m.bookkeeping) : Books answering m' :=
  hb.congr (congrArg Bookkeeping.requestCount books) (congrArg Bookkeeping.requestAt books)
    (congrArg Bookkeeping.connectionRequests books)

/-- The registry depends on the identities of its peers only. -/
theorem Registered.of_bookkeeping (hr : Registered m) (count : m'.peerCount = m.peerCount)
    (books : m'.bookkeeping = m.bookkeeping)
    (identity : ∀ r, (m'.peerAt r).endpoint = (m.peerAt r).endpoint ∧
      (m'.peerAt r).id = (m.peerAt r).id) : Registered m' := by
  obtain ⟨listed, h⟩ := hr
  have hnext : m'.nextPeer = m.nextPeer := congrArg Bookkeeping.nextPeer books
  have hprev : m'.prevPeer = m.prevPeer := congrArg Bookkeeping.prevPeer books
  have hhead : m'.headPeer = m.headPeer := congrArg Bookkeeping.headPeer books
  have hpeers : m'.peers = m.peers := congrArg Bookkeeping.peers books
  have harray : m'.peersArray = m.peersArray := congrArg Bookkeeping.peersArray books
  have hids : m'.peerIds = m.peerIds := congrArg Bookkeeping.peerIds books
  have hcounter : m'.peerIdCounter = m.peerIdCounter := congrArg Bookkeeping.peerIdCounter books
  refine ⟨listed, ?_, ?_, ?_, fun k r => ?_, fun i r => ?_, ?_⟩
  · rw [hnext, hprev, hhead]
    exact h.linked
  · rw [count]
    exact h.made
  · rw [count, hnext, hprev]
    exact h.unlinked
  · rw [hpeers, (identity r).1]
    exact h.peers k r
  · rw [harray, (identity r).2]
    exact h.array i r
  · rw [hids, hcounter]
    simpa only [(identity _).2] using h.ids

theorem SameIdentity.identity {r : PeerRef} {p : NetPeer} (h : SameIdentity (m.peerAt r) p)
    (r' : PeerRef) : ((m.setPeer r p).peerAt r').endpoint = (m.peerAt r').endpoint ∧
      ((m.setPeer r p).peerAt r').id = (m.peerAt r').id := by
  by_cases he : r' = r
  · subst he
    rw [NetManager.setPeer_self]
    exact ⟨h.endpoint, h.id⟩
  · rw [NetManager.setPeer_of_ne _ he]
    exact ⟨rfl, rfl⟩

theorem SameObjects.consistent (h : SameObjects m m') (hm : Consistent m)
    (peers : ∀ k r, m'.peers k = some r → m.peers k = some r)
    (requests : ∀ k r, m'.peers k = some r → m.connectionRequests k = none →
      m'.connectionRequests k = none) (listed : Listed m → Listed m')
    (books : Books (fun _ => True) m → Books (fun _ => True) m') : Consistent m' where
  wellFormed := by
    rw [h.peerCount, h.peerAt]
    exact hm.wellFormed
  pool := fun p hp => (h.pool p hp).elim (hm.pool p) id
  registered := by
    rw [h.peerCount, h.peerAt]
    exact fun k r hr => hm.registered k r (peers k r hr)
  separate := fun k r hr => requests k r hr (hm.separate k r (peers k r hr))
  listed := listed hm.listed
  books := books hm.books

theorem Aside.consistent (h : Aside m m') (hm : Consistent m) : Consistent m' :=
  h.toSameObjects.consistent hm (by rw [h.peers]; exact fun _ _ => id)
    (by rw [h.requests]; exact fun _ _ _ => id)
    (fun hl => hl.of_bookkeeping h.peerCount h.bookkeeping)
    (fun hb => hb.of_bookkeeping h.bookkeeping)

theorem Consistent.setPeer (hm : Consistent m) {r : PeerRef} {p : NetPeer}
    (h : SameIdentity (m.peerAt r) p) : Consistent (m.setPeer r p) where
  wellFormed := by
    intro r' hr'
    by_cases he : r' = r
    · subst he
      rw [NetManager.setPeer_self]
      exact h.wellFormed (hm.wellFormed r' hr')
    · rw [NetManager.setPeer_of_ne _ he]
      exact hm.wellFormed r' hr'
  pool := hm.pool
  registered := by
    intro k r' hr'
    obtain ⟨hlt, hk⟩ := hm.registered k r' hr'
    refine ⟨hlt, ?_⟩
    by_cases he : r' = r
    · subst he
      rw [NetManager.setPeer_self, h.endpoint, hk]
    · rw [NetManager.setPeer_of_ne _ he, hk]
  separate := hm.separate
  listed := ⟨hm.listed.head, hm.listed.next⟩
  books := hm.books.of_bookkeeping rfl

/-- Where a request waits there is no peer. -/
theorem Consistent.free (hm : Consistent m) {k : NetAddress.Key} {q : RequestRef}
    (hq : m.connectionRequests k = some q) : m.peers k = none := by
  cases hr : m.peers k with
  | none => rfl
  | some r =>
    have hnone := hm.separate k r hr
    rw [hq] at hnone
    cases hnone

theorem Consistent.log (hm : Consistent m) (sent : List Datagram) (events : List NetEvent) :
    Consistent { m with sent := sent, events := events } :=
  ⟨hm.wellFormed, hm.pool, hm.registered, hm.separate, ⟨hm.listed.head, hm.listed.next⟩,
    hm.books.of_bookkeeping rfl⟩

theorem SameIdentity.finish (p : NetPeer) :
    SameIdentity p { p with connectionState := .disconnected } where
  id := rfl
  endpoint := rfl
  connectTime := rfl
  connectAcceptPacket := rfl
  wellFormed := fun hw => { hw with
    accept := fun q hq => ⟨nofun, (hw.accept q hq).2⟩
    mergeSingle := fun hc => ⟨nofun, (hw.mergeSingle hc).2⟩
    outgoing := nofun
    connected := nofun }

theorem Change.consistent {S : Scope} (h : Change S m m') (hm : Consistent m) : Consistent m' := by
  cases h with
  | aside h => exact h.consistent hm
  | register same registers peers requests keeps =>
    exact same.consistent hm peers requests keeps.listed (keeps.books _ (fun _ _ => trivial))
  | touch r same state number => exact hm.setPeer same
  | emit d emits => exact hm.log _ m.events
  | note e about => exact hm.log m.sent _
  | report r e peer type state => exact hm.log m.sent _
  | close r p ds notes e closes same number before after emits about type peer result =>
    exact result.consistent ((hm.setPeer same).log _ _)
  | finish r closes before => exact hm.setPeer (.finish _)
  | establish r p e same accepts before after type peer => exact (hm.setPeer same).log m.sent _
  | create p ds notes es registers opens wellFormed emits about announce result peers own others
      keeps =>
    have hlt : ∀ r < m.peerCount, m'.peerAt r = m.peerAt r := by
      intro r hr
      rw [result.peerAt]
      exact Function.update_of_ne hr.ne _ _
    have hnew : m'.peerAt m.peerCount = p := by
      rw [result.peerAt]
      exact Function.update_self ..
    have hcount : m'.peerCount = m.peerCount + 1 := result.peerCount
    refine ⟨fun r hr => ?_, fun q hq => (result.pool q hq).elim (hm.pool q) id, fun k r hr => ?_,
      fun k r hr => ?_, keeps.listed hm.listed, keeps.books _ (fun _ _ => trivial) hm.books⟩
    · rcases Nat.lt_succ_iff_lt_or_eq.mp (hcount ▸ hr) with hr | rfl
      · rw [hlt r hr]
        exact hm.wellFormed r hr
      · rw [hnew]
        exact wellFormed
    · rw [peers] at hr
      split at hr
      · next hk =>
        cases hr
        exact ⟨hcount ▸ Nat.lt_succ_self _, by rw [hnew, hk]⟩
      · obtain ⟨hr', hk⟩ := hm.registered k r hr
        exact ⟨hcount ▸ Nat.lt_succ_of_lt hr', by rw [hlt r hr', hk]⟩
    · rw [peers] at hr
      split at hr
      · next hk => rw [hk, own]
      · exact others k (hm.separate k r hr)

theorem Changes.consistent {S : Scope} (h : Changes S m m') (hm : Consistent m) : Consistent m' :=
  preserved_of_run (P := Consistent) (fun _ _ hm hs => hs.consistent hm) hm h

end Consistent

/-- What changes in a scope make of one peer. -/
structure PeerEvolves (S : Scope) (p p' : NetPeer) : Prop where
  endpoint : p'.endpoint = p.endpoint
  connectTime : p'.connectTime = p.connectTime
  connectAcceptPacket : p'.connectAcceptPacket = p.connectAcceptPacket
  moves : Moves p.connectionState p'.connectionState
  number : (p.connectionState ≠ .outgoing ∨ ∀ t n, ¬ S.accepts t n) →
    p'.connectNumber = p.connectNumber
  steady : ¬ S.closes → (∀ t n, ¬ S.accepts t n) → p'.connectionState = p.connectionState

namespace PeerEvolves

variable {S : Scope} {p p' p'' : NetPeer}

theorem refl (p : NetPeer) : PeerEvolves S p p :=
  ⟨rfl, rfl, rfl, .stay _, fun _ => rfl, fun _ _ => rfl⟩

theorem trans (h : PeerEvolves S p p') (h' : PeerEvolves S p' p'') : PeerEvolves S p p'' where
  endpoint := h'.endpoint.trans h.endpoint
  connectTime := h'.connectTime.trans h.connectTime
  connectAcceptPacket := h'.connectAcceptPacket.trans h.connectAcceptPacket
  moves := h.moves.trans h'.moves
  number := fun hs => (h'.number (hs.imp_left h.moves.not_outgoing)).trans (h.number hs)
  steady := fun hc ha => (h'.steady hc ha).trans (h.steady hc ha)

theorem of_identity (h : SameIdentity p p') (hm : Moves p.connectionState p'.connectionState)
    (hn : p'.connectNumber = p.connectNumber)
    (hs : ¬ S.closes → (∀ t n, ¬ S.accepts t n) → p'.connectionState = p.connectionState) :
    PeerEvolves S p p' :=
  ⟨h.endpoint, h.connectTime, h.connectAcceptPacket, hm, fun _ => hn, hs⟩

end PeerEvolves

/-- What changes in a scope make of a manager. -/
structure Evolves (S : Scope) (m m' : NetManager) : Prop where
  count : m.peerCount ≤ m'.peerCount
  peer : ∀ r < m.peerCount, PeerEvolves S (m.peerAt r) (m'.peerAt r)
  idle : ∀ r < m.peerCount, (m.peerAt r).connectionState = .disconnected → ¬ S.elapses r →
    (m'.peerAt r).timeSinceLastPacket = (m.peerAt r).timeSinceLastPacket
  fixed : ¬ S.registers → m'.peerCount = m.peerCount ∧ m'.peers = m.peers
  kept : ¬ S.registers → m'.bookkeeping = m.bookkeeping
  disconnectTimeout : m'.disconnectTimeout = m.disconnectTimeout

namespace Evolves

variable {S : Scope} {m m' m'' : NetManager}

theorem refl (m : NetManager) : Evolves S m m :=
  ⟨le_rfl, fun _ _ => .refl _, fun _ _ _ _ => rfl, fun _ => ⟨rfl, rfl⟩, fun _ => rfl, rfl⟩

theorem trans (h : Evolves S m m') (h' : Evolves S m' m'') : Evolves S m m'' where
  count := h.count.trans h'.count
  peer := fun r hr => (h.peer r hr).trans (h'.peer r (hr.trans_le h.count))
  idle := fun r hr hd he => (h'.idle r (hr.trans_le h.count)
    ((h.peer r hr).moves.disconnected hd) he).trans (h.idle r hr hd he)
  fixed := fun hr => ⟨(h'.fixed hr).1.trans (h.fixed hr).1, (h'.fixed hr).2.trans (h.fixed hr).2⟩
  kept := fun hr => (h'.kept hr).trans (h.kept hr)
  disconnectTimeout := h'.disconnectTimeout.trans h.disconnectTimeout

theorem of_update {r : PeerRef} {p : NetPeer} (hc : m'.peerCount = m.peerCount)
    (hp : m'.peerAt = Function.update m.peerAt r p) (hk : m'.bookkeeping = m.bookkeeping)
    (ht : m'.disconnectTimeout = m.disconnectTimeout) (h : PeerEvolves S (m.peerAt r) p)
    (hi : (m.peerAt r).connectionState = .disconnected → ¬ S.elapses r →
      p.timeSinceLastPacket = (m.peerAt r).timeSinceLastPacket) :
    Evolves S m m' where
  count := hc.ge
  peer := by
    intro r' _
    rw [hp]
    by_cases he : r' = r
    · subst he
      rw [Function.update_self]
      exact h
    · rw [Function.update_of_ne he]
      exact .refl _
  idle := by
    intro r' _
    rw [hp]
    by_cases he : r' = r
    · subst he
      rw [Function.update_self]
      exact hi
    · rw [Function.update_of_ne he]
      exact fun _ _ => rfl
  fixed := fun _ => ⟨hc, congrArg Bookkeeping.peers hk⟩
  kept := fun _ => hk
  disconnectTimeout := ht

end Evolves

section Evolves

variable {S : Scope} {m m' : NetManager}

theorem Change.evolves (h : Change S m m') : Evolves S m m' := by
  cases h with
  | aside h =>
    exact ⟨h.peerCount.ge, fun r _ => by rw [h.peerAt]; exact .refl _,
      fun r _ _ _ => by rw [h.peerAt], fun _ => ⟨h.peerCount, h.peers⟩, fun _ => h.bookkeeping,
      h.disconnectTimeout⟩
  | register same registers peers requests keeps =>
    exact ⟨same.peerCount.ge, fun r _ => by rw [same.peerAt]; exact .refl _,
      fun r _ _ _ => by rw [same.peerAt], fun hr => absurd registers hr,
      fun hr => absurd registers hr, same.disconnectTimeout⟩
  | touch r same state number idle =>
    exact .of_update rfl rfl rfl rfl
      (.of_identity same (state ▸ .stay _) number (fun _ _ => state)) idle
  | emit d emits =>
    exact ⟨le_rfl, fun _ _ => .refl _, fun _ _ _ _ => rfl, fun _ => ⟨rfl, rfl⟩, fun _ => rfl, rfl⟩
  | note e about =>
    exact ⟨le_rfl, fun _ _ => .refl _, fun _ _ _ _ => rfl, fun _ => ⟨rfl, rfl⟩, fun _ => rfl, rfl⟩
  | report r e peer type state =>
    exact ⟨le_rfl, fun _ _ => .refl _, fun _ _ _ _ => rfl, fun _ => ⟨rfl, rfl⟩, fun _ => rfl, rfl⟩
  | close r p ds notes e closes same number before after emits about type peer result =>
    have hm : Moves (m.peerAt r).connectionState p.connectionState := by
      rcases after with ha | ha <;> rw [ha]
      · exact .shutdown before
      · exact .disconnect before
    exact .of_update result.peerCount result.peerAt result.bookkeeping result.disconnectTimeout
      (.of_identity same hm number (fun hc _ => absurd closes hc))
      (fun hd => absurd (hd ▸ before) (by decide))
  | finish r closes before =>
    exact .of_update rfl rfl rfl rfl
      (.of_identity (.finish _) (before ▸ .finish) rfl (fun hc _ => absurd closes hc))
      (fun _ _ => rfl)
  | establish r p e same accepts before after type peer =>
    refine .of_update rfl rfl rfl rfl ⟨same.endpoint, same.connectTime, same.connectAcceptPacket, ?_,
      fun hs => ?_, fun _ ha => absurd accepts (ha _ _)⟩
      (fun hd => absurd (before.symm.trans hd) nofun)
    · rw [before, after]
      exact .establish
    · exact hs.elim (fun hn => absurd before hn) (fun ha => absurd accepts (ha _ _))
  | create p ds notes es registers opens wellFormed emits about announce result peers own others
      keeps =>
    have hkept : ∀ r < m.peerCount, m'.peerAt r = m.peerAt r := by
      intro r hr
      rw [result.peerAt]
      exact Function.update_of_ne hr.ne _ _
    refine ⟨?_, fun r hr => ?_, fun r hr _ _ => by rw [hkept r hr], fun hr => absurd registers hr,
      fun hr => absurd registers hr, result.disconnectTimeout⟩
    · have : m'.peerCount = m.peerCount + 1 := result.peerCount
      omega
    · rw [hkept r hr]
      exact .refl _

theorem Changes.evolves (h : Changes S m m') : Evolves S m m' := by
  induction h with
  | refl => exact .refl _
  | tail _ hs ih => exact ih.trans hs.evolves

/-- What was sent is the log's growth, and all of it was allowed. -/
theorem Change.sent {E : Datagram → Prop} (hE : ∀ m d, S.emits m d → E d) (h : Change S m m') :
    ∃ ds, m'.sent = m.sent ++ ds ∧ ∀ d ∈ ds, E d := by
  cases h with
  | aside h => exact ⟨[], by simp [h.sent], by simp⟩
  | register same registers peers requests keeps => exact ⟨[], by simp [same.sent], by simp⟩
  | emit d emits => exact ⟨[d], rfl, by simpa using hE m d emits⟩
  | close r p ds notes e closes same number before after emits about type peer result =>
    exact ⟨ds, result.sent, fun d hd => hE m d (emits d hd)⟩
  | create p ds notes es registers opens wellFormed emits about announce result peers own others
      keeps =>
    exact ⟨ds, result.sent, fun d hd => hE m' d (emits d hd)⟩
  | _ => exact ⟨[], (List.append_nil _).symm, by simp⟩

theorem Changes.sent {E : Datagram → Prop} (hE : ∀ m d, S.emits m d → E d) (h : Changes S m m') :
    ∃ ds, m'.sent = m.sent ++ ds ∧ ∀ d ∈ ds, E d := by
  induction h with
  | refl => exact ⟨[], (List.append_nil _).symm, by simp⟩
  | tail _ hs ih =>
    obtain ⟨ds, hds, hall⟩ := ih
    obtain ⟨ds', hds', hall'⟩ := hs.sent hE
    refine ⟨ds ++ ds', by rw [hds', hds, List.append_assoc], fun d hd => ?_⟩
    exact (List.mem_append.mp hd).elim (hall d) (hall' d)

/-- The queue of events only grows, and what comes to it is complete. -/
theorem Change.queued (h : Change S m m') :
    ∃ es, m'.events = m.events ++ es ∧ ∀ e ∈ es, e.Filled := by
  have hsame : m'.events = m.events → ∃ es, m'.events = m.events ++ es ∧ ∀ e ∈ es, e.Filled :=
    fun he => ⟨[], by rw [he, List.append_nil], by simp⟩
  have hone : ∀ e : NetEvent, e.Filled → ∀ n ∈ [e], n.Filled := fun e he n hn =>
    List.mem_singleton.mp hn ▸ he
  cases h with
  | aside h => exact hsame h.events
  | register same => exact hsame same.events
  | touch => exact hsame rfl
  | emit => exact hsame rfl
  | note e about plain => exact ⟨[e], rfl, hone e plain⟩
  | report r e peer type state known plain => exact ⟨[e], rfl, hone e plain⟩
  | close r p ds notes e closes same number before after emits about type peer result known plain =>
    exact ⟨notes ++ [e], by rw [result.events, List.append_assoc], plain⟩
  | finish => exact hsame rfl
  | establish r p e same accepts before after type peer known plain =>
    exact ⟨[e], rfl, hone e plain⟩
  | create p ds notes es registers opens wellFormed emits about announce result peers own others
      keeps plain =>
    exact ⟨notes ++ es, by rw [result.events, List.append_assoc], plain⟩

theorem Changes.queued (h : Changes S m m') :
    ∃ es, m'.events = m.events ++ es ∧ ∀ e ∈ es, e.Filled := by
  induction h with
  | refl => exact ⟨[], (List.append_nil _).symm, by simp⟩
  | tail _ hs ih =>
    obtain ⟨es, hes, hall⟩ := ih
    obtain ⟨es', hes', hall'⟩ := hs.queued
    refine ⟨es ++ es', by rw [hes', hes, List.append_assoc], fun e he => ?_⟩
    exact (List.mem_append.mp he).elim (hall e) (hall' e)

theorem Change.registered (h : Change S m m') (hr : Registered m) : Registered m' := by
  cases h with
  | aside h =>
    exact hr.of_bookkeeping h.peerCount h.bookkeeping (fun r => by rw [h.peerAt]; exact ⟨rfl, rfl⟩)
  | register same registers peers requests keeps => exact keeps.registered hr
  | touch r same state number => exact hr.of_bookkeeping rfl rfl same.identity
  | emit d emits => exact hr.of_bookkeeping rfl rfl (fun _ => ⟨rfl, rfl⟩)
  | note e about => exact hr.of_bookkeeping rfl rfl (fun _ => ⟨rfl, rfl⟩)
  | report r e peer type state => exact hr.of_bookkeeping rfl rfl (fun _ => ⟨rfl, rfl⟩)
  | close r p ds notes e closes same number before after emits about type peer result =>
    refine hr.of_bookkeeping result.peerCount result.bookkeeping (fun q => ?_)
    rw [result.peerAt]
    exact same.identity q
  | finish r closes before =>
    exact hr.of_bookkeeping rfl rfl (SameIdentity.finish (m.peerAt r)).identity
  | establish r p e same accepts before after type peer =>
    exact hr.of_bookkeeping rfl rfl same.identity
  | create p ds notes es registers opens wellFormed emits about announce result peers own others
      keeps => exact keeps.registered hr

theorem Changes.registered (h : Changes S m m') (hr : Registered m) : Registered m' :=
  preserved_of_run (P := Registered) (fun _ _ hr hs => hs.registered hr) hr h

theorem Live.of_bookkeeping (hl : Live m) (count : m'.peerCount = m.peerCount)
    (books : m'.bookkeeping = m.bookkeeping)
    (identity : ∀ r, (m'.peerAt r).endpoint = (m.peerAt r).endpoint)
    (connected : ∀ r, (m'.peerAt r).isConnected = true → (m.peerAt r).isConnected = true) :
    Live m' := by
  intro r hr hc
  have hpeers : m'.peers = m.peers := congrArg Bookkeeping.peers books
  rw [hpeers, identity]
  exact hl r (count ▸ hr) (connected r hc)

theorem Live.setPeer (hl : Live m) {r : PeerRef} {p : NetPeer}
    (same : SameIdentity (m.peerAt r) p)
    (connected : p.isConnected = true → (m.peerAt r).isConnected = true) :
    Live (m.setPeer r p) := by
  refine hl.of_bookkeeping rfl rfl (fun q => (same.identity q).1) (fun q hq => ?_)
  by_cases he : q = r
  · subst he
    rw [NetManager.setPeer_self] at hq
    exact connected hq
  · rwa [NetManager.setPeer_of_ne _ he] at hq

theorem NetPeer.isConnected_iff (p : NetPeer) : p.isConnected = true ↔
    p.connectionState = .outgoing ∨ p.connectionState = .connected := by
  rw [isConnected]
  cases p.connectionState <;> decide

theorem Change.live (ho : S.orderly) (h : Change S m m') (hl : Live m) : Live m' := by
  cases h with
  | aside h =>
    exact hl.of_bookkeeping h.peerCount h.bookkeeping (fun r => by rw [h.peerAt])
      (fun r hc => by rwa [h.peerAt] at hc)
  | register same registers peers requests keeps => exact keeps.live ho hl
  | touch r same state number =>
    refine hl.setPeer same (fun hc => ?_)
    rwa [NetPeer.isConnected, state] at hc
  | emit d emits => exact hl
  | note e about => exact hl
  | report r e peer type state => exact hl
  | close r p ds notes e closes same number before after emits about type peer result =>
    have hset : Live (m.setPeer r p) := hl.setPeer same (fun _ =>
      (NetPeer.isConnected_iff _).mpr before)
    exact hset.of_bookkeeping result.peerCount result.bookkeeping
      (fun q => by rw [result.peerAt]) (fun q hc => by rwa [result.peerAt] at hc)
  | finish r closes before => exact hl.setPeer (.finish _) nofun
  | establish r p e same accepts before after type peer =>
    have hset : Live (m.setPeer r p) := hl.setPeer same (fun _ =>
      (NetPeer.isConnected_iff _).mpr (.inl before))
    exact hset
  | create p ds notes es registers opens wellFormed emits about announce result peers own others
      keeps => exact keeps.live ho hl

theorem Changes.live (ho : S.orderly) (h : Changes S m m') (hl : Live m) : Live m' :=
  preserved_of_run (P := Live) (fun _ _ hl hs => hs.live ho hl) hl h

theorem Change.books {answering : RequestRef → Prop} (ha : ∀ q, S.answers q → answering q)
    (h : Change S m m') (hb : Books answering m) : Books answering m' := by
  cases h with
  | aside h => exact hb.of_bookkeeping h.bookkeeping
  | register same registers peers requests keeps => exact keeps.books answering ha hb
  | close r p ds notes e closes same number before after emits about type peer result =>
    exact hb.of_bookkeeping result.bookkeeping
  | create p ds notes es registers opens wellFormed emits about announce result peers own others
      keeps => exact keeps.books answering ha hb
  | _ => exact hb.of_bookkeeping rfl

theorem Changes.books {answering : RequestRef → Prop} (ha : ∀ q, S.answers q → answering q)
    (h : Changes S m m') (hb : Books answering m) : Books answering m' :=
  preserved_of_run (P := Books answering) (fun _ _ hb hs => hs.books ha hb) hb h

theorem Change.requests (h : Change S m m') : KeepsRequests m m' := by
  have hsame : ∀ {x : NetManager}, x.bookkeeping = m.bookkeeping → KeepsRequests m x := fun hx =>
    .of_eq (congrArg Bookkeeping.requestCount hx) (congrArg Bookkeeping.requestAt hx)
  cases h with
  | aside h => exact hsame h.bookkeeping
  | register same registers peers requests keeps => exact keeps.requests
  | close r p ds notes e closes same number before after emits about type peer result =>
    exact hsame result.bookkeeping
  | create p ds notes es registers opens wellFormed emits about announce result peers own others
      keeps => exact keeps.requests
  | _ => exact hsame rfl

theorem Changes.requests (h : Changes S m m') : KeepsRequests m m' := by
  induction h with
  | refl => exact .of_eq rfl rfl
  | tail _ hs ih => exact ih.trans hs.requests

end Evolves

end LiteNet.Manager
