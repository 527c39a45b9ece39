import LiteNet.Manager.Books
import LiteNet.Manager.UpdateChanges

/-! # Peers coming and going as sequences of changes

A new peer is registered only for an address without one, and while it is made
nothing it sends can disconnect it.
-/

namespace LiteNet.Manager
open Library Wire Channels Relation

/-- A scope in which everything may happen that a manager does, except that accepts are limited. -/
structure Scope.Open (S : Scope) : Prop where
  closes : S.closes
  registers : S.registers
  opens : ∀ n, n.toNat < maxConnectionNumber → S.opens n
  plain : ∀ m d, headerProperty d.bytes ≠ .connectAccept → S.emits m d
  accept : ∀ m r packet, r < m.peerCount →
    (m.peerAt r).connectAcceptPacket = some packet →
      S.emits m ⟨(m.peerAt r).endpoint, packet.wire⟩

/-- The part of a scope that a session has. -/
def Scope.inSession (S : Scope) : Scope :=
  { S with accepts := fun _ _ => False, registers := False }

theorem Scope.Open.serving {S : Scope} (hS : S.Open) (n : UInt8) : S.inSession.Serving n where
  closes := hS.closes
  accepts := fun _ _ => id
  emits := by
    intro m d hd
    refine hS.plain m d (fun hp => ?_)
    rw [SessionDatagram, hp] at hd
    exact hd

theorem Change.of_inSession {S : Scope} {m m' : NetManager} (h : Change S.inSession m m') :
    Change S m m' := by
  cases h with
  | aside h => exact .aside h
  | register same registers peers requests keeps => exact registers.elim
  | touch r same state number idle => exact .touch r same state number idle
  | emit d emits => exact .emit d emits
  | note e about plain => exact .note e about plain
  | report r e peer type state known plain => exact .report r e peer type state known plain
  | close r p ds notes e closes same number before after emits about type peer result known plain =>
    exact .close r p ds notes e closes same number before after emits about type peer result known
      plain
  | finish r closes before => exact .finish r closes before
  | establish r p e same accepts before after type peer => exact accepts.elim
  | create p ds notes es registers opens wellFormed emits about announce result peers own others
      keeps => exact registers.elim

theorem Changes.of_inSession {S : Scope} {m m' : NetManager} (h : Changes S.inSession m m') :
    Changes S m m' :=
  h.lift id (fun _ _ => Change.of_inSession)

theorem headerProperty_wire_ne {packet : NetPacket} (hs : 1 ≤ packet.size)
    (h : packet.property ≠ .connectAccept) : headerProperty packet.wire ≠ .connectAccept := by
  rw [NetPacket.headerProperty_wire packet hs]
  exact h

theorem Aside.pushEvent {m m' : NetManager} (h : Aside m m') (e : NetEvent) :
    Aside (m.pushEvent e) (m'.pushEvent e) where
  peerCount := h.peerCount
  peerAt := h.peerAt
  events := congrArg (· ++ [e]) h.events
  sent := h.sent
  pool := h.pool
  disconnectTimeout := h.disconnectTimeout
  bookkeeping := h.bookkeeping

namespace NetManager

section Registry

variable {S : Scope} {m : NetManager}

theorem removePeerInternal_listed (m : NetManager) (address : NetAddress) (hl : Listed m) :
    Listed (m.removePeerInternal address) := by
  cases hr : m.peers address.key with
  | none =>
    rw [removePeerInternal, hr]
    exact hl
  | some r =>
    rw [m.removePeerInternal_eq hr]
    refine ⟨fun q hq => ?_, fun a b hab => ?_⟩
    · dsimp only at hq
      split at hq
      · exact hl.next r q hq
      · exact hl.head q hq
    · change DoublyLinked.eraseNext m.nextPeer m.prevPeer r a = some b at hab
      rw [DoublyLinked.eraseNext] at hab
      cases hq : m.prevPeer r with
      | none =>
        rw [hq] at hab
        exact hl.next a b hab
      | some q =>
        simp only [hq] at hab
        by_cases ha : a = q
        · rw [ha, Function.update_self] at hab
          exact hl.next r b hab
        · rw [Function.update_of_ne ha] at hab
          exact hl.next a b hab

theorem removePeerInternal_live (m : NetManager) (address : NetAddress)
    (ended : ∀ r, m.peers address.key = some r → (m.peerAt r).isConnected = false)
    (hl : Live m) : Live (m.removePeerInternal address) := by
  cases hr : m.peers address.key with
  | none =>
    rw [removePeerInternal, hr]
    exact hl
  | some r =>
    rw [m.removePeerInternal_eq hr]
    intro q hq hc
    have hfound := hl q hq hc
    have hne : (m.peerAt q).endpoint.key ≠ address.key := by
      intro he
      rw [ended q (he ▸ hfound)] at hc
      cases hc
    exact (Function.update_of_ne hne _ _).trans hfound

theorem removePeerInternal_changes (hS : S.registers) (m : NetManager) (address : NetAddress)
    (ended : S.orderly → ∀ r, m.peers address.key = some r → (m.peerAt r).isConnected = false) :
    Changes S m (m.removePeerInternal address) := by
  have hkeeps : KeepsBooks S m (m.removePeerInternal address) := by
    refine ⟨m.removePeerInternal_listed address, fun h => h.removePeerInternal address,
      fun answering _ hb => ?_, ?_, fun ho => m.removePeerInternal_live address (ended ho)⟩
    · rw [removePeerInternal]
      split
      · exact hb
      · exact hb.congr rfl rfl rfl
    · rw [removePeerInternal]
      split <;> exact .of_eq rfl rfl
  cases hr : m.peers address.key with
  | none => rw [removePeerInternal, hr]
  | some r =>
    rw [m.removePeerInternal_eq hr] at hkeeps ⊢
    refine .single (.register ⟨rfl, rfl, rfl, rfl, fun _ => .inl, rfl⟩ hS ?_ (fun _ _ _ => id)
      hkeeps)
    intro k q hq
    dsimp only at hq
    by_cases hk : k = address.key
    · rw [hk, Function.update_self] at hq
      cases hq
    · rwa [Function.update_of_ne hk] at hq

theorem removePeerInternal_peers (m : NetManager) (address : NetAddress) :
    (m.removePeerInternal address).peers address.key = none := by
  rw [removePeerInternal]
  split
  · assumption
  · exact Function.update_self ..

theorem addPeer_spec (m : NetManager) (r : PeerRef)
    (h : m.peers (m.peerAt r).endpoint.key = none) :
    SameObjects m (m.addPeer r) ∧
      (∀ k, (m.addPeer r).peers k =
        if k = (m.peerAt r).endpoint.key then some r else m.peers k) ∧
      (m.addPeer r).requestCount = m.requestCount ∧ (m.addPeer r).requestAt = m.requestAt ∧
      (m.addPeer r).connectionRequests = m.connectionRequests := by
  rw [addPeer_eq]
  refine ⟨⟨rfl, rfl, rfl, rfl, fun _ => .inl, rfl⟩, fun k => ?_, rfl, rfl, rfl⟩
  dsimp only
  rw [h, Option.isSome_none, if_neg Bool.false_ne_true, Function.update_apply]

theorem addPeer_listed {m : NetManager} {r : PeerRef} (hl : Listed m) (hr : r < m.peerCount) :
    Listed (m.addPeer r) := by
  rw [addPeer_eq]
  refine ⟨fun q hq => Option.some.inj hq ▸ hr, fun a b hab => ?_⟩
  change DoublyLinked.pushNext m.nextPeer m.headPeer r a = some b at hab
  cases hhead : m.headPeer with
  | none =>
    rw [hhead] at hab
    exact hl.next a b hab
  | some head =>
    rw [hhead, DoublyLinked.pushNext] at hab
    by_cases ha : a = r
    · rw [ha, Function.update_self] at hab
      exact Option.some.inj hab ▸ hl.head head hhead
    · rw [Function.update_of_ne ha] at hab
      exact hl.next a b hab

theorem addPeer_requests (m : NetManager) (r : PeerRef) :
    (m.addPeer r).connectionRequests = m.connectionRequests := by
  rw [addPeer_eq]

/-- Sending to an address without a connected peer disconnects nobody. -/
theorem sendRaw_inactive (m : NetManager) (bytes : Bytes) (endpoint : NetAddress)
    (h : ∀ r, m.tryGetPeer endpoint = some r → (m.peerAt r).isConnected = false) :
    ∃ notes : List NetEvent, (∀ e ∈ notes, ∀ r, ¬ e.About r) ∧ (∀ e ∈ notes, e.Filled) ∧
      Aside { m with sent := m.sent ++ [⟨endpoint, bytes⟩], events := m.events ++ notes }
        (m.sendRaw bytes endpoint).1 := by
  have hforce : ∀ (x : NetManager) reason code, x.peers = m.peers → x.peerAt = m.peerAt →
      x.disconnectPeerForce endpoint reason code none = x := by
    intro x reason code hp ha
    rw [disconnectPeerForce, tryGetPeer, hp]
    cases hr : m.peers endpoint.key with
    | none => rfl
    | some r =>
      have hc := h r hr
      rw [NetPeer.isConnected] at hc
      dsimp only
      rw [ha, NetPeer.shutdownForce]
      cases hs : (m.peerAt r).connectionState with
      | disconnected =>
        rw [← ha, setPeer_eq]
        rfl
      | shutdownRequested =>
        rw [← ha, setPeer_eq]
        rfl
      | connected => simp [hs] at hc
      | outgoing => simp [hs] at hc
  obtain ⟨results, hsent | ⟨reason, code, hsent⟩⟩ := m.sendRaw_cases bytes endpoint
  · refine ⟨[], by simp, by simp, ?_⟩
    rw [hsent, List.append_nil]
    exact ⟨⟨rfl, rfl, rfl, rfl, fun _ => .inl, rfl⟩, rfl⟩
  · generalize hx : { m.logSent ⟨endpoint, bytes⟩ with sendResults := results } = x at hsent
    have hpeers : x.peers = m.peers := by rw [← hx]; rfl
    have hpeerAt : x.peerAt = m.peerAt := by rw [← hx]; rfl
    rw [hsent, unreachable, hforce x _ _ hpeers hpeerAt, ite_self]
    rw [createEvent_made, ← hx]
    refine ⟨[_], fun e he => ?_, fun e he => ?_, ⟨⟨rfl, rfl, rfl, rfl, fun _ => .inl, rfl⟩, rfl⟩⟩
    · rw [List.mem_singleton.mp he]
      exact networkError_about rfl
    · rw [List.mem_singleton.mp he]
      exact ⟨rfl, rfl⟩

/-- Nothing a new object sends can disconnect a peer: its address has none. -/
theorem newPeer_sendRaw {p : NetPeer} (fresh : m.peers p.endpoint.key = none) (bytes : Bytes) :
    ∃ notes : List NetEvent, (∀ e ∈ notes, ∀ r, ¬ e.About r) ∧ (∀ e ∈ notes, e.Filled) ∧
      Aside { m.newPeer p with
        sent := m.sent ++ [⟨p.endpoint, bytes⟩], events := m.events ++ notes }
        ((m.newPeer p).sendRaw bytes p.endpoint).1 :=
  sendRaw_inactive (m.newPeer p) bytes _ (fun _ hr => absurd (fresh.symm.trans hr) nofun)

/-- The object is what is found under its address once it was sent a packet and added. -/
theorem newPeer_registers {p : NetPeer} (fresh : m.peers p.endpoint.key = none) (bytes : Bytes) :
    (((m.newPeer p).sendRaw bytes p.endpoint).1.addPeer m.peerCount).peerAt m.peerCount = p ∧
      (((m.newPeer p).sendRaw bytes p.endpoint).1.addPeer m.peerCount).peers p.endpoint.key =
        some m.peerCount := by
  obtain ⟨notes, -, -, hx⟩ := newPeer_sendRaw fresh bytes
  generalize ((m.newPeer p).sendRaw bytes p.endpoint).1 = x at hx ⊢
  have hself : x.peerAt m.peerCount = p := by
    rw [hx.peerAt]
    exact Function.update_self ..
  have hpeers : x.peers p.endpoint.key = none := by
    rw [hx.peers]
    exact fresh
  have hadd := x.addPeer_spec m.peerCount (by rw [hself]; exact hpeers)
  rw [hadd.1.peerAt, hself, hadd.2.1, hself, if_pos rfl]
  exact ⟨rfl, rfl⟩

theorem newPeer_requests {p : NetPeer} (fresh : m.peers p.endpoint.key = none) (bytes : Bytes) :
    (((m.newPeer p).sendRaw bytes p.endpoint).1.addPeer m.peerCount).connectionRequests =
      m.connectionRequests := by
  obtain ⟨notes, -, -, hx⟩ := newPeer_sendRaw fresh bytes
  rw [addPeer_requests, hx.requests]
  rfl

theorem new_wellFormed (channelsCount : ℕ) (endpoint : NetAddress) (id : ℕ) :
    { NetPeer.new channelsCount endpoint id with
      connectionState := .disconnected }.session.WellFormed where
  ping := NetPacket.new_unstamped _ _ _
  pong := NetPacket.new_unstamped _ _ _
  merge := NetPacket.new_unstamped _ _ _
  mergeBuffer := (Nat.le_add_right _ _).trans (NetPacket.new .merged maxPacketSize (by decide)).size_le
  shutdown := ⟨NetPacket.property_setProperty _ _, by
    change 1 ≤ 0 + PacketProperty.disconnect.getHeaderSize
    decide⟩
  request := nofun
  accept := nofun
  unreliable := nofun
  channelCount := Nat.dvd_mul_left ..
  channels := nofun
  delivered := fun _ => rfl
  mergeEmpty := fun _ => rfl
  mergeSingle := nofun
  outgoing := nofun
  connected := nofun
  oneOrigin := nofun

/-- What the object `p` is registered with: its number was taken, its address is free, and it is
sent a packet of its handshake. -/
structure Entering (S : Scope) (m numbered : NetManager) (p : NetPeer) (bytes : Bytes) : Prop where
  numbered : Numbered m p.id numbered
  opens : S.opens p.connectNumber
  wellFormed : p.session.WellFormed
  fresh : m.peers p.endpoint.key = none
  property : headerProperty bytes ≠ .connectAccept ∨
    ∃ packet, p.connectAcceptPacket = some packet ∧ bytes = packet.wire

theorem Entering.enters {numbered : NetManager} {p : NetPeer} {bytes : Bytes}
    (h : Entering S m numbered p bytes) {listed : List PeerRef} (hl : InRegistry m listed)
    {sent : List Datagram} {events : List NetEvent} {x : NetManager}
    (hx : Aside { numbered.newPeer p with sent := sent, events := events } x) :
    Enters x m.peerCount listed := by
  have hcount : numbered.peerCount = m.peerCount := h.numbered.peerCount
  have hat : x.peerAt = Function.update m.peerAt m.peerCount p := by
    rw [hx.peerAt]
    change Function.update numbered.peerAt numbered.peerCount p = _
    rw [h.numbered.peerAt, hcount]
  have hnew : x.peerAt m.peerCount = p := by
    rw [hat]
    exact Function.update_self ..
  have hold : ∀ q ∈ listed, x.peerAt q = m.peerAt q := by
    intro q hq
    rw [hat]
    exact Function.update_of_ne (hl.made q hq).ne _ _
  have hbooks : ∀ {β : Type} (f : Bookkeeping → β) (hf : ∀ b : Bookkeeping, ∀ ids counter,
      f { b with peerIds := ids, peerIdCounter := counter } = f b),
      f x.bookkeeping = f m.bookkeeping := by
    intro β f hf
    rw [hx.bookkeeping]
    change f numbered.bookkeeping = f m.bookkeeping
    rw [h.numbered.bookkeeping, hf]
  have hnext : x.nextPeer = m.nextPeer := hbooks Bookkeeping.nextPeer (fun _ _ _ => rfl)
  have hprev : x.prevPeer = m.prevPeer := hbooks Bookkeeping.prevPeer (fun _ _ _ => rfl)
  have hhead : x.headPeer = m.headPeer := hbooks Bookkeeping.headPeer (fun _ _ _ => rfl)
  have hpeers : x.peers = m.peers := hbooks Bookkeeping.peers (fun _ _ _ => rfl)
  have harray : x.peersArray = m.peersArray := hbooks Bookkeeping.peersArray (fun _ _ _ => rfl)
  have hids : x.peerIds = numbered.peerIds := congrArg Bookkeeping.peerIds hx.bookkeeping
  have hcounter : x.peerIdCounter = numbered.peerIdCounter :=
    congrArg Bookkeeping.peerIdCounter hx.bookkeeping
  refine ⟨?_, hl.made, ?_, ?_, fun k q => ?_, fun i q => ?_, ?_, ?_⟩
  · rw [hnext, hprev, hhead]
    exact hl.linked
  · rw [hx.peerCount]
    change numbered.peerCount + 1 = _
    rw [hcount]
  · rw [hnext, hprev]
    exact hl.unlinked
  · rw [hpeers, hl.peers]
    refine and_congr_right (fun hq => ?_)
    rw [hold q hq]
  · rw [harray, hl.array]
    refine and_congr_right (fun hq => ?_)
    rw [hold q hq]
  · have hmap : listed.map (fun q => (x.peerAt q).id) = listed.map (fun q => (m.peerAt q).id) :=
      List.map_congr_left (fun q hq => by rw [hold q hq])
    rw [hnew, hmap, hids, hcounter]
    exact h.numbered.ids _ hl.ids
  · rw [hnew, hpeers]
    exact h.fresh

/-- A new object is registered after it sent a packet, and perhaps announced. -/
theorem addPeer_change (hS : S.Open) {numbered : NetManager} {p : NetPeer} {bytes : Bytes}
    (h : Entering S m numbered p bytes) (es : List NetEvent)
    (requests : NetAddress.Key → Option RequestRef)
    (announce : es = [] ∧ p.connectionState ≠ .connected ∨
      p.connectionState = .connected ∧ ∃ e : NetEvent, es = [e] ∧ e.type = .connect ∧
        e.peer = some m.peerCount)
    (plain : ∀ e ∈ es, e.Filled)
    (begun : p.connectionState = .connected → p.connectAcceptPacket.isSome = true)
    (own : requests p.endpoint.key = none)
    (others : ∀ k, m.connectionRequests k = none → requests k = none)
    (books : ∀ answering : RequestRef → Prop, (∀ q, S.answers q → answering q) →
      Books answering m → Books answering { m with connectionRequests := requests })
    {added : NetManager}
    (hadded : ((numbered.newPeer p).sendRaw bytes p.endpoint).1.addPeer m.peerCount = added) :
    Change S m { added with events := added.events ++ es, connectionRequests := requests } := by
  have hfresh : numbered.peers p.endpoint.key = none := by
    rw [h.numbered.peers]
    exact h.fresh
  obtain ⟨notes, hnotes, hplain, hx⟩ := newPeer_sendRaw hfresh bytes
  generalize ((numbered.newPeer p).sendRaw bytes p.endpoint).1 = x at hx hadded
  have hcount : x.peerCount = m.peerCount + 1 := by
    rw [hx.peerCount]
    exact congrArg (· + 1) h.numbered.peerCount
  have hat : x.peerAt = Function.update m.peerAt m.peerCount p := by
    rw [hx.peerAt]
    change Function.update numbered.peerAt numbered.peerCount p = _
    rw [h.numbered.peerAt, h.numbered.peerCount]
  have hself : x.peerAt m.peerCount = p := by
    rw [hat]
    exact Function.update_self ..
  have hpeers : x.peers = m.peers := hx.peers.trans h.numbered.peers
  have hadd := x.addPeer_spec m.peerCount (by rw [hself, hpeers]; exact h.fresh)
  have hlisted : Listed x → Listed added := fun hl =>
    hadded ▸ addPeer_listed hl (hcount ▸ Nat.lt_succ_self _)
  have hregistered : Registered m → Registered added := by
    rintro ⟨listed, hl⟩
    exact ⟨_, hadded ▸ (h.enters hl hx).addPeer⟩
  rw [hadded] at hadd
  obtain ⟨hsame, haddpeers, hrequestCount, hrequestAt, -⟩ := hadd
  have hxbooks : x.bookkeeping = numbered.bookkeeping := hx.bookkeeping
  have hcounts : added.requestCount = m.requestCount :=
    hrequestCount.trans ((congrArg Bookkeeping.requestCount hxbooks).trans
      (congrArg Bookkeeping.requestCount h.numbered.bookkeeping))
  have hrequest : added.requestAt = m.requestAt :=
    hrequestAt.trans ((congrArg Bookkeeping.requestAt hxbooks).trans
      (congrArg Bookkeeping.requestAt h.numbered.bookkeeping))
  refine .create p [⟨p.endpoint, bytes⟩] notes es hS.registers h.opens h.wellFormed
    (fun d hd => ?_) hnotes announce ⟨?_, ?_, ?_, ?_, fun q hq => ?_, ?_⟩ (fun k => ?_) own others
    ⟨fun hl => ?_, fun hr => ?_, fun answering ha hb => ?_, .of_eq hcounts hrequest,
      fun _ hl => ?_⟩ (fun e he => (List.mem_append.mp he).elim (hplain e) (plain e)) begun
  · rw [List.mem_singleton.mp hd]
    rcases h.property with hp | ⟨packet, hp, rfl⟩
    · exact hS.plain _ _ hp
    · have hlt : m.peerCount < added.peerCount := by
        rw [hsame.peerCount, hcount]
        exact Nat.lt_succ_self _
      have hown : added.peerAt m.peerCount = p := by rw [hsame.peerAt, hself]
      have hemits := hS.accept { added with
        events := added.events ++ es, connectionRequests := requests } m.peerCount packet hlt
          ((congrArg NetPeer.connectAcceptPacket hown).trans hp)
      rwa [show NetPeer.endpoint _ = p.endpoint from congrArg NetPeer.endpoint hown] at hemits
  · exact hsame.peerCount.trans hcount
  · exact hsame.peerAt.trans hat
  · change added.events ++ es = m.events ++ notes ++ es
    rw [hsame.events, hx.events, h.numbered.events]
  · change added.sent = m.sent ++ _
    rw [hsame.sent, hx.sent, h.numbered.sent]
  · exact (hsame.pool q hq).elim (fun hq => (hx.pool q hq).elim (h.numbered.pool q) .inr) .inr
  · exact hsame.disconnectTimeout.trans (hx.disconnectTimeout.trans h.numbered.disconnectTimeout)
  · change added.peers k = _
    rw [haddpeers, hself, hpeers]
  · have hnumbered : Listed numbered := by
      refine ⟨fun r hr => ?_, fun q r hr => ?_⟩
      · rw [h.numbered.peerCount]
        have hhead : numbered.headPeer = m.headPeer :=
          congrArg Bookkeeping.headPeer h.numbered.bookkeeping
        exact hl.head r (hhead ▸ hr)
      · rw [h.numbered.peerCount]
        have hnext : numbered.nextPeer = m.nextPeer :=
          congrArg Bookkeeping.nextPeer h.numbered.bookkeeping
        exact hl.next q r (hnext ▸ hr)
    have hx' : Listed x := by
      refine ⟨fun r hr => ?_, fun q r hr => ?_⟩
      · have hhead : x.headPeer = numbered.headPeer := congrArg Bookkeeping.headPeer hxbooks
        rw [hcount, ← h.numbered.peerCount]
        exact Nat.lt_succ_of_lt (hnumbered.head r (hhead ▸ hr))
      · have hnext : x.nextPeer = numbered.nextPeer := congrArg Bookkeeping.nextPeer hxbooks
        rw [hcount, ← h.numbered.peerCount]
        exact Nat.lt_succ_of_lt (hnumbered.next q r (hnext ▸ hr))
    have hl' := hlisted hx'
    exact ⟨hl'.head, hl'.next⟩
  · obtain ⟨listed, hl⟩ := hregistered hr
    exact ⟨listed, hl.linked, hl.made, hl.unlinked, hl.peers, hl.array, hl.ids⟩
  · exact (books answering ha hb).congr hcounts hrequest rfl
  · intro r hr hc
    change added.peers (added.peerAt r).endpoint.key = some r
    change (added.peerAt r).isConnected = true at hc
    change r < added.peerCount at hr
    rw [hsame.peerCount, hcount] at hr
    rw [hsame.peerAt] at hc
    rw [haddpeers, hsame.peerAt, hself, hpeers]
    rcases Nat.lt_succ_iff_lt_or_eq.mp hr with hr | rfl
    · have hold : x.peerAt r = m.peerAt r := by
        rw [hat]
        exact Function.update_of_ne hr.ne _ _
      rw [hold] at hc ⊢
      have hfound := hl r hr hc
      rw [if_neg (fun he => absurd hfound (by rw [he, h.fresh]; nofun)), hfound]
    · rw [hself, if_pos rfl]

theorem addPeer_changes (hS : S.Open) {numbered : NetManager} {p : NetPeer} {bytes : Bytes}
    (h : Entering S m numbered p bytes) (state : p.connectionState ≠ .connected)
    (request : m.connectionRequests p.endpoint.key = none) :
    Changes S m (((numbered.newPeer p).sendRaw bytes p.endpoint).1.addPeer m.peerCount) := by
  have hchange := addPeer_change hS h [] m.connectionRequests (.inl ⟨rfl, state⟩) (by simp)
    (fun hc => absurd hc state) request (fun _ => id) (fun _ _ hb => hb) rfl
  have hfresh : numbered.peers p.endpoint.key = none := by
    rw [h.numbered.peers]
    exact h.fresh
  have hrequests := newPeer_requests hfresh bytes
  rw [h.numbered.peerCount] at hrequests
  rw [List.append_nil, ← h.numbered.requests, ← hrequests] at hchange
  exact .single hchange

/-- The constructor that connects, with the registration that follows. -/
theorem newOutgoing_changes (hS : S.Open) (m : NetManager) (address : NetAddress)
    {connectNum : UInt8} (connectData : Bytes) (opens : S.opens connectNum)
    (fresh : m.peers address.key = none) (request : m.connectionRequests address.key = none) :
    Changes S m ((m.newOutgoing address connectNum connectData).addPeer m.peerCount) := by
  have hnumbered := (Numbered.getNextPeerId m).aside (getCurrentTime_aside m.getNextPeerId.2)
  rw [newOutgoing]
  dsimp only
  generalize m.getNextPeerId.2.getCurrentTime = clock at hnumbered ⊢
  have hproperty := NetConnectRequestPacket.property_make connectData address clock.1
    (.ofNat m.getNextPeerId.1)
  have hsize := NetConnectRequestPacket.size_make connectData address clock.1
    (.ofNat m.getNextPeerId.1)
  generalize NetConnectRequestPacket.make connectData address clock.1
    (.ofNat m.getNextPeerId.1) = made at hproperty hsize ⊢
  have hpacket : (made.setConnectionNumber connectNum).property = .connectRequest ∧
      1 ≤ (made.setConnectionNumber connectNum).size := by
    rw [NetPacket.property_setConnectionNumber, NetPacket.size_setConnectionNumber, hsize]
    exact ⟨hproperty, Nat.le_add_left_of_le (by decide)⟩
  generalize made.setConnectionNumber connectNum = packet at hpacket ⊢
  refine addPeer_changes hS ⟨hnumbered, opens,
    { new_wellFormed m.channelsCount address m.getNextPeerId.1 with
      request := fun q hq => Option.some.inj hq ▸ hpacket
      accept := nofun
      mergeSingle := nofun
      outgoing := fun _ => rfl
      connected := nofun
      oneOrigin := fun _ => rfl }, fresh, .inl (headerProperty_wire_ne hpacket.2 ?_)⟩ nofun request
  rw [hpacket.1]
  decide

theorem nextConnectionNumber_lt (n : UInt8) :
    (nextConnectionNumber n).toNat < maxConnectionNumber := by
  have hlt : (n.toNat + 1) % maxConnectionNumber < maxConnectionNumber := Nat.mod_lt _ (by decide)
  rw [nextConnectionNumber, UInt8.toNat_ofNat', Nat.mod_eq_of_lt (hlt.trans (by decide))]
  exact hlt

theorem connect_changes (hS : S.Open) (m : NetManager) (address : NetAddress)
    (connectData : Bytes) (uninitialized : UInt8)
    (opens : m.running = true → m.connectionRequests address.key = none →
      m.peers address.key = none → S.opens uninitialized) :
    Changes S m (m.connect address connectData uninitialized).1 := by
  rw [connect]
  split
  · exact .refl
  · next hrunning =>
    rw [Bool.not_eq_true, Bool.not_eq_false'] at hrunning
    split
    · exact .refl
    · next hrequest =>
      rw [Bool.not_eq_true, Option.isSome_eq_false_iff, Option.isNone_iff_eq_none] at hrequest
      split
      · next hfresh =>
        exact newOutgoing_changes hS m address _ (opens hrunning hrequest hfresh) hfresh hrequest
      · next r hr =>
        dsimp only
        split
        · exact .refl
        · next hconnected =>
          refine ReflTransGen.trans (removePeerInternal_changes hS.registers m address
            (fun _ q hq => ?_)) ?_
          · cases hr.symm.trans hq
            rwa [Bool.not_eq_true] at hconnected

          have hrequests : (m.removePeerInternal address).connectionRequests =
              m.connectionRequests := by
            rw [removePeerInternal]
            split <;> rfl
          have hcount : (m.removePeerInternal address).peerCount = m.peerCount := by
            rw [removePeerInternal]
            split <;> rfl
          have hnew := newOutgoing_changes hS (m.removePeerInternal address) address connectData
            (hS.opens _ (nextConnectionNumber_lt (m.peerAt r).connectNumber))
            (removePeerInternal_peers ..) (by rw [hrequests, hrequest])
          rw [hcount] at hnew ⊢
          exact hnew

theorem Registered.withRequests (hr : Registered m) (requestCount : ℕ)
    (requestAt : RequestRef → NetConnectionRequest)
    (connectionRequests : NetAddress.Key → Option RequestRef) :
    Registered { m with
      requestCount := requestCount
      requestAt := requestAt
      connectionRequests := connectionRequests } := by
  obtain ⟨listed, h⟩ := hr
  exact ⟨listed, h.linked, h.made, h.unlinked, h.peers, h.array, h.ids⟩

theorem updateRequest_spec (request : NetConnectionRequest)
    (connectRequest : NetConnectRequestPacket) :
    (request.updateRequest connectRequest).remoteEndpoint = request.remoteEndpoint ∧
      (request.updateRequest connectRequest).used = request.used ∧
      ((request.updateRequest connectRequest).internalPacket = request.internalPacket ∨
        (request.updateRequest connectRequest).internalPacket = connectRequest) := by
  rw [NetConnectionRequest.updateRequest]
  split_ifs
  · exact ⟨rfl, rfl, .inl rfl⟩
  · exact ⟨rfl, rfl, .inl rfl⟩
  · exact ⟨rfl, rfl, .inr rfl⟩

theorem queueRequest_changes (hS : S.Open) {addr : NetAddress}
    (fresh : m.peers addr.key = none) {request : NetConnectRequestPacket}
    (number : request.connectionNumber.toNat < maxConnectionNumber) :
    Changes S m (m.queueRequest addr request) := by
  rw [queueRequest]
  split
  · next q hq =>
    obtain ⟨hendpoint, hused, hpacket⟩ := updateRequest_spec (m.requestAt q) request
    refine .single (.register ⟨rfl, rfl, rfl, rfl, fun _ => .inl, rfl⟩ hS.registers
      (fun _ _ => id) (fun _ _ _ => id) ⟨fun h => ⟨h.head, h.next⟩, ?_, fun answering _ hb => ?_,
        .setRequest m q hendpoint hused.trans, fun _ => id⟩)
    · exact fun hr => Registered.withRequests hr _ _ _
    · refine hb.setRequest q hendpoint (.inl hused) (fun hold => ?_)
      rcases hpacket with hp | hp <;> rw [hp]
      · exact hold
      · exact number
  · next hfree =>
    refine ReflTransGen.trans (.single (.register ?_ hS.registers ?_ ?_ ?_))
      (Changes.createEvent ?_ ⟨rfl, rfl⟩)
    · exact ⟨rfl, rfl, rfl, rfl, fun _ => .inl, rfl⟩
    · exact fun _ _ => id
    · intro k r hr hk
      have hne : k ≠ addr.key := fun he => absurd (he ▸ hr) (by rw [fresh]; nofun)
      exact (Function.update_of_ne hne _ _).trans hk
    · have hold : ∀ q < m.requestCount, Function.update m.requestAt m.requestCount
          (NetConnectionRequest.new request addr) q = m.requestAt q :=
        fun q hq => Function.update_of_ne hq.ne _ _
      refine ⟨fun h => ⟨h.head, h.next⟩, ?_, fun answering _ hb => hb.newRequest hfree number,
        ⟨Nat.le_succ _, fun q hq => ?_, fun q hq hu => ?_⟩, fun _ => id⟩
      · exact fun hr => Registered.withRequests hr _ _ _
      · exact congrArg NetConnectionRequest.remoteEndpoint (hold q hq)
      · exact (congrArg NetConnectionRequest.used (hold q hq)).trans hu
    · rintro r ⟨hr, -⟩
      cases hr

theorem peerProcessConnectRequest_changes (hS : S.Open) {r : PeerRef} (hr : r < m.peerCount)
    (request : NetConnectRequestPacket) :
    Changes S m (m.peerProcessConnectRequest r request).1 := by
  have hif : ∀ {c : Prop} [Decidable c] (a b : ConnectRequestResult),
      Changes S m (if c then (m, a) else (m, b)).1 := by
    intro c _ a b
    split <;> exact .refl
  rw [peerProcessConnectRequest]
  cases (m.peerAt r).connectionState with
  | outgoing =>
    dsimp only
    split
    · exact .refl
    · exact hif _ _
  | connected =>
    dsimp only
    split
    · split
      · exact .refl
      · next packet hp =>
        exact sendRaw_changes hS.closes _ _ _ (hS.accept m r packet hr hp)
    · exact hif _ _
  | disconnected => exact hif _ _
  | shutdownRequested => exact hif _ _

/-- A result that replaces the peer leaves the manager as it was, and a new connection takes the
place of a session that has ended. -/
theorem peerProcessConnectRequest_spec (m : NetManager) (r : PeerRef)
    (request : NetConnectRequestPacket) :
    ((m.peerProcessConnectRequest r request).2 ≠ .none →
      (m.peerProcessConnectRequest r request).1 = m) ∧
    ((m.peerProcessConnectRequest r request).2 = .newConnection →
      (m.peerAt r).isConnected = false) := by
  have hif : ∀ {c : Prop} [Decidable c] (a b : ConnectRequestResult),
      (if c then (m, a) else (m, b)).1 = m := by
    intro c _ a b
    split <;> rfl
  rw [peerProcessConnectRequest, NetPeer.isConnected]
  cases hs : (m.peerAt r).connectionState with
  | outgoing =>
    dsimp only
    split
    · exact ⟨fun _ => rfl, fun h => by cases h⟩
    · split
      · exact ⟨fun _ => rfl, fun h => by cases h⟩
      · exact ⟨fun _ => rfl, fun h => by cases h⟩
  | connected =>
    dsimp only
    split
    · split
      · exact ⟨fun _ => rfl, fun h => by cases h⟩
      · exact ⟨fun h => absurd rfl h, fun h => by cases h⟩
    · split
      · exact ⟨fun _ => rfl, fun h => by cases h⟩
      · exact ⟨fun _ => rfl, fun h => by cases h⟩
  | disconnected => exact ⟨fun _ => hif _ _, fun _ => rfl⟩
  | shutdownRequested => exact ⟨fun _ => hif _ _, fun _ => rfl⟩

theorem shutdownForce_isConnected (p : NetPeer) : p.shutdownForce.1.isConnected = false := by
  rw [NetPeer.shutdownForce]
  cases hs : p.connectionState with
  | outgoing => rfl
  | connected => rfl
  | shutdownRequested =>
    rw [NetPeer.isConnected, hs]
    rfl
  | disconnected =>
    rw [NetPeer.isConnected, hs]
    rfl

theorem disconnectPeerForce_ends (m : NetManager) (address : NetAddress)
    (reason : DisconnectReason) (code : ℕ) {r : PeerRef}
    (hr : (m.disconnectPeerForce address reason code none).peers address.key = some r) :
    ((m.disconnectPeerForce address reason code none).peerAt r).isConnected = false := by
  cases hq : m.tryGetPeer address with
  | none =>
    rw [disconnectPeerForce, hq] at hr
    cases (show m.peers address.key = none from hq).symm.trans hr
  | some q =>
    have hnote : ∀ (x : NetManager) result, (x.noteShutdown q result reason code none).peerAt =
        x.peerAt ∧ (x.noteShutdown q result reason code none).peers = x.peers := by
      intro x result
      rw [noteShutdown]
      split <;> exact ⟨rfl, rfl⟩
    rw [disconnectPeerForce, hq] at hr ⊢
    rw [(hnote _ _).2] at hr
    rw [(hnote _ _).1]
    cases (show m.peers address.key = some q from hq).symm.trans hr
    rw [setPeer_self, shutdownForce_isConnected]

/-- A connected peer that is found under its address is disconnected, and nobody else. -/
theorem disconnectPeerForce_only {m : NetManager} {r : PeerRef} (reason : DisconnectReason)
    (hr : m.peers (m.peerAt r).endpoint.key = some r) (hc : (m.peerAt r).isConnected = true) :
    ((m.disconnectPeerForce (m.peerAt r).endpoint reason 0 none).peerAt r).connectionState =
        .disconnected ∧
      ∀ r' ≠ r, (m.disconnectPeerForce (m.peerAt r).endpoint reason 0 none).peerAt r' =
        m.peerAt r' := by
  have hnote : ∀ (x : NetManager) result,
      (x.noteShutdown r result reason 0 none).peerAt = x.peerAt := by
    intro x result
    rw [noteShutdown]
    split <;> rfl
  have hshut : (m.peerAt r).shutdownForce.1.connectionState = .disconnected := by
    rw [NetPeer.shutdownForce]
    rcases (NetPeer.isConnected_iff _).mp hc with hs | hs <;> rw [hs]
  rw [disconnectPeerForce, show m.tryGetPeer (m.peerAt r).endpoint = some r from hr]
  dsimp only
  rw [hnote]
  constructor
  · rw [setPeer_self]
    exact hshut
  · intro r' hne
    exact setPeer_of_ne _ hne _

theorem processConnectRequest_changes (hS : S.Open) (hm : Consistent m) (addr : NetAddress)
    {request : NetConnectRequestPacket}
    (number : request.connectionNumber.toNat < maxConnectionNumber) :
    Changes S m (m.processConnectRequest addr (m.tryGetPeer addr) request) := by
  cases hr : m.tryGetPeer addr with
  | none => exact queueRequest_changes hS hr number
  | some r =>
    rw [processConnectRequest]
    have hprocessed := peerProcessConnectRequest_changes hS (hm.registered _ r hr).1 request
    obtain ⟨hsame, hended⟩ := m.peerProcessConnectRequest_spec r request
    generalize m.peerProcessConnectRequest r request = processed at hprocessed hsame hended ⊢
    have hreplace : ∀ m', Changes S m m' →
        (∀ q, m'.peers addr.key = some q → (m'.peerAt q).isConnected = false) →
        ∀ request' : NetConnectRequestPacket,
        request'.connectionNumber.toNat < maxConnectionNumber → Changes S m
          ((m'.removePeerInternal addr).queueRequest addr request') := by
      intro m' h ended request' hnumber
      have h' := h.trans (removePeerInternal_changes hS.registers m' addr (fun _ => ended))
      exact h'.trans (queueRequest_changes hS (removePeerInternal_peers m' addr) hnumber)
    cases hresult : processed.2 with
    | none => exact hprocessed.trans (poolRecycle_aside _ _).changes
    | p2pLose =>
      exact hreplace _ (hprocessed.trans (disconnectPeerForce_changes hS.closes ..))
        (fun _ => disconnectPeerForce_ends _ _ _ _) _ number
    | reconnection =>
      exact hreplace _ (hprocessed.trans (disconnectPeerForce_changes hS.closes ..))
        (fun _ => disconnectPeerForce_ends _ _ _ _) _ (nextConnectionNumber_lt _)
    | newConnection =>
      refine hreplace _ hprocessed (fun q hq => ?_) _ (nextConnectionNumber_lt _)
      rw [hsame (by rw [hresult]; decide)] at hq ⊢
      cases (show m.peers addr.key = some r from hr).symm.trans hq
      exact hended hresult

theorem fillShutdownPacket_property (p : NetPeer) (rejectData : Option Bytes) (offset size : ℕ) :
    (p.fillShutdownPacket rejectData offset size).property = .disconnect ∧
      1 ≤ (p.fillShutdownPacket rejectData offset size).size := by
  have hset : ∀ packet : NetPacket, (((packet.setProperty .disconnect).setConnectionNumber
      p.connectNumber).setInt64 p.connectTime 1).property = .disconnect := by
    intro packet
    refine (NetPacket.property_write _ 1 _ one_pos).trans ?_
    rw [NetPacket.property_setConnectionNumber]
    exact NetPacket.property_setProperty _ _
  have hsize : 1 ≤ size + PacketProperty.disconnect.getHeaderSize :=
    Nat.le_add_left_of_le (by decide)
  cases rejectData with
  | none =>
    rw [NetPeer.fillShutdownPacket, ite_self]
    exact ⟨hset _, hsize⟩
  | some data =>
    rw [NetPeer.fillShutdownPacket]
    split
    · exact ⟨hset _, hsize⟩
    · exact ⟨(NetPacket.property_write _ 9 _ (by decide)).trans (hset _), hsize⟩

theorem rejectForce_changes (hc : S.closes)
    (plain : ∀ m d, headerProperty d.bytes ≠ .connectAccept → S.emits m d) (m : NetManager)
    (request : NetConnectionRequest) (rejectData : Option Bytes) (offset size : ℕ) :
    Changes S m (m.rejectForce request rejectData offset size) := by
  cases rejectData with
  | none => exact .refl
  | some data =>
    rw [rejectForce]
    split
    · exact .refl
    · have hgot : Changes S m (m.poolGetWithProperty .disconnect size).2 :=
        (poolGetPacket_aside m _).changes
      have hproperty : ((m.poolGetWithProperty .disconnect size).1.setConnectionNumber
          request.internalPacket.connectionNumber).property = .disconnect := by
        rw [NetPacket.property_setConnectionNumber]
        exact NetPacket.property_setProperty _ _
      have hsize : 1 ≤ ((m.poolGetWithProperty .disconnect size).1.setConnectionNumber
          request.internalPacket.connectionNumber).size := by
        change 1 ≤ (m.poolGetPacket _).1.size
        rw [poolGetPacket_size]
        exact Nat.le_add_right_of_le (by decide)
      dsimp only
      generalize (m.poolGetWithProperty .disconnect size).1.setConnectionNumber
        request.internalPacket.connectionNumber = packet at hproperty hsize ⊢
      refine hgot.trans (sendRawAndRecycle_changes hc _ _ _ (plain _ _ ?_))
      split
      · refine headerProperty_wire_ne hsize ?_
        rw [hproperty]
        decide
      · refine headerProperty_wire_ne hsize ?_
        rw [NetPacket.property_write _ 9 _ (by decide), hproperty]
        decide

theorem erase_changes (hS : S.registers) (m : NetManager) {k : NetAddress.Key}
    (answers : ∀ q, m.connectionRequests k = some q → S.answers q) :
    Changes S m { m with
      connectionRequests := Function.update m.connectionRequests k none } := by
  refine .single (.register ⟨rfl, rfl, rfl, rfl, fun _ => .inl, rfl⟩ hS (fun _ _ => id)
    (fun _ _ _ => update_none k) ⟨fun h => ⟨h.head, h.next⟩, ?_, fun answering ha hb =>
      hb.erase (fun q hq => ha q (answers q hq)), .of_eq rfl rfl, fun _ => id⟩)
  exact fun hr => Registered.withRequests hr _ _ _

theorem shutdownForce_connected {p : NetPeer} (h : p.connectionState = .connected) :
    p.shutdownForce.2 = .wasConnected := by
  rw [NetPeer.shutdownForce, h]

@[simp] theorem newPeer_self (m : NetManager) (p : NetPeer) :
    (m.newPeer p).peerAt m.peerCount = p := Function.update_self ..

/-- A new peer that is shut down is made in the state it is shut down to. -/
theorem shutdown_newPeer (m : NetManager) {p : NetPeer} (hs : p.connectionState = .connected)
    (rejectData : Option Bytes) (offset size : ℕ) :
    ((m.newPeer p).shutdown m.peerCount rejectData offset size false).1 =
      ((m.newPeer { p with
        timeSinceLastPacket := 0
        shutdownPacket := p.fillShutdownPacket rejectData offset size
        connectionState := .shutdownRequested }).sendRaw
          (p.fillShutdownPacket rejectData offset size).wire p.endpoint).1 := by
  have hset : ∀ p', (m.newPeer p).setPeer m.peerCount p' = m.newPeer p' := by
    intro p'
    rw [setPeer, newPeer, newPeer, Function.update_idem]
  rw [shutdown]
  dsimp only
  rw [newPeer_self, shutdownForce_connected hs, if_neg (by decide), hset]

/-- What an answer may do in a scope: the request and what waits under its address are answered,
and a session may begin with its number. -/
structure Answering (S : Scope) (m : NetManager) (q : RequestRef) : Prop where
  answers : S.answers q
  waiting : ∀ q', m.connectionRequests (m.requestAt q).remoteEndpoint.key = some q' → S.answers q'
  opens : S.opens (m.requestAt q).internalPacket.connectionNumber

theorem newRejected_changes (hS : S.Open) (m : NetManager) {q : RequestRef}
    (ha : Answering S m q) (rejectData : Option Bytes) (offset size : ℕ)
    (fresh : m.peers (m.requestAt q).remoteEndpoint.key = none) {added : NetManager}
    (hadded : (m.newRejected (m.requestAt q) rejectData offset size).addPeer m.peerCount = added) :
    Changes S m { added with
      connectionRequests := Function.update added.connectionRequests
        (m.requestAt q).remoteEndpoint.key none } := by
  have hnumbered := Numbered.getNextPeerId m
  have hopens := ha.opens
  have hwaiting := ha.waiting
  generalize m.requestAt q = request at fresh hadded hopens hwaiting ⊢
  rw [newRejected, ← hnumbered.peerCount, shutdown_newPeer _ rfl] at hadded
  have hpacket := fillShutdownPacket_property
    { NetPeer.new m.channelsCount request.remoteEndpoint m.getNextPeerId.1 with
      connectTime := request.internalPacket.connectionTime
      connectNumber := request.internalPacket.connectionNumber } rejectData offset size
  have hproperty := headerProperty_wire_ne hpacket.2 (by rw [hpacket.1]; decide)
  have hfresh : m.getNextPeerId.2.peers request.remoteEndpoint.key = none := by
    rw [hnumbered.peers]
    exact fresh
  have hrequests : added.connectionRequests = m.connectionRequests := by
    rw [← hadded]
    exact (newPeer_requests hfresh _).trans hnumbered.requests
  rw [hnumbered.peerCount] at hadded
  rw [hrequests]
  have hadd := addPeer_change hS ⟨hnumbered, hopens, ?_, fresh, .inl hproperty⟩ []
    (Function.update m.connectionRequests request.remoteEndpoint.key none) (.inl ⟨rfl, ?_⟩) (by simp)
    (fun hc => by cases hc) (Function.update_self ..) (fun k hk => update_none _ hk)
    (fun answering hall hb => hb.erase (fun q hq => hall q (hwaiting q hq))) hadded
  · rw [List.append_nil] at hadd
    exact .single hadd
  · exact { new_wellFormed m.channelsCount request.remoteEndpoint m.getNextPeerId.1 with
      shutdown := hpacket
      accept := nofun
      mergeSingle := nofun
      outgoing := nofun
      connected := nofun }
  · exact nofun

theorem newAccepted_changes (hS : S.Open) (m : NetManager) {q : RequestRef}
    (ha : Answering S m q)
    (fresh : m.peers (m.requestAt q).remoteEndpoint.key = none) {added : NetManager}
    (hadded : (m.newAccepted (m.requestAt q)).addPeer m.peerCount = added) {e : NetEvent}
    (type : e.type = .connect) (peer : e.peer = some m.peerCount) (plain : e.userData = 0) :
    Changes S m { added.pushEvent e with
      connectionRequests := Function.update added.connectionRequests
        (m.requestAt q).remoteEndpoint.key none } := by
  have hnumbered := Numbered.getNextPeerId m
  have hopens := ha.opens
  have hwaiting := ha.waiting
  generalize m.requestAt q = request at fresh hadded hopens hwaiting ⊢
  rw [newAccepted] at hadded
  have hfresh : m.getNextPeerId.2.peers request.remoteEndpoint.key = none := by
    rw [hnumbered.peers]
    exact fresh
  have hrequests : added.connectionRequests = m.connectionRequests := by
    rw [← hadded, ← hnumbered.peerCount]
    exact (newPeer_requests hfresh _).trans hnumbered.requests
  rw [hrequests]
  refine .single (addPeer_change hS ⟨hnumbered, hopens, ?_, fresh, .inr ⟨_, ?_, rfl⟩⟩ [e]
    (Function.update m.connectionRequests request.remoteEndpoint.key none)
    (.inr ⟨?_, e, rfl, type, peer⟩) (fun n hn => ?_) (fun _ => rfl)
    (Function.update_self ..) (fun k hk => update_none _ hk)
    (fun answering hall hb => hb.erase (fun q hq => hall q (hwaiting q hq))) hadded)
  · exact { new_wellFormed m.channelsCount request.remoteEndpoint m.getNextPeerId.1 with
      accept := fun q hq => ⟨nofun, m.getNextPeerId.1, (Option.some.inj hq).symm⟩
      mergeSingle := nofun
      outgoing := nofun
      connected := fun _ => .inr rfl
      oneOrigin := nofun }
  · rfl
  · rfl
  · rw [List.mem_singleton.mp hn]
    exact NetEvent.filled_of_peer (.inl type) peer plain

theorem rejectForce_requests (m : NetManager) (request : NetConnectionRequest)
    (rejectData : Option Bytes) (offset size : ℕ) :
    (m.rejectForce request rejectData offset size).connectionRequests = m.connectionRequests := by
  have hchanges := rejectForce_changes (S := ⟨fun _ _ => True, fun _ _ => False, True, True, False,
    fun _ => False, fun _ => False, False, fun _ => False⟩) trivial (fun _ _ _ => trivial) m request
      rejectData offset size
  exact congrArg Bookkeeping.connectionRequests (hchanges.evolves.kept id)

theorem onConnectionSolved_changes (hS : S.Open) (m : NetManager) {q : RequestRef}
    (ha : Answering S m q) (rejectData : Option Bytes) (offset size : ℕ) :
    Changes S m (m.onConnectionSolved q rejectData offset size).1 := by
  rw [onConnectionSolved]
  dsimp only
  split
  · refine (rejectForce_changes hS.closes hS.plain ..).trans (erase_changes hS.registers _ ?_)
    rw [rejectForce_requests]
    exact ha.waiting
  · split
    · exact erase_changes hS.registers _ ha.waiting
    · next hpeer =>
      rw [Bool.not_eq_true, Option.isSome_eq_false_iff, Option.isNone_iff_eq_none] at hpeer
      split
      · exact newRejected_changes hS m ha rejectData offset size hpeer rfl
      · obtain ⟨e, ht, hp, hu, he⟩ := createEvent_eq
          ((m.newAccepted (m.requestAt q)).addPeer m.peerCount)
          { type := .connect, peer := some m.peerCount }
        rw [he]
        exact newAccepted_changes hS m ha hpeer rfl ht hp hu

/-- The flags and the reader of a request that is being answered may change. -/
theorem setRequest_changes (hS : S.registers) (m : NetManager) {q : RequestRef}
    (answers : S.answers q) {request : NetConnectionRequest}
    (endpoint : request.remoteEndpoint = (m.requestAt q).remoteEndpoint)
    (number : request.internalPacket.connectionNumber =
      (m.requestAt q).internalPacket.connectionNumber)
    (used : (m.requestAt q).used = true → request.used = true) :
    Changes S m { m with requestAt := Function.update m.requestAt q request } := by
  refine .single (.register ⟨rfl, rfl, rfl, rfl, fun _ => .inl, rfl⟩ hS (fun _ _ => id)
    (fun _ _ _ => id) ⟨fun h => ⟨h.head, h.next⟩, ?_, fun answering ha hb =>
      hb.setRequest q endpoint (.inr (ha q answers)) (fun hn => number ▸ hn),
        .setRequest m q endpoint used, fun _ => id⟩)
  exact fun hr => Registered.withRequests hr _ _ _

theorem activate_changes (hS : S.registers) (m : NetManager) {q : RequestRef}
    (answers : S.answers q) (result : ConnectionRequestResult) :
    Changes S m (m.activate q result) :=
  setRequest_changes hS m answers rfl rfl (fun _ => rfl)

theorem Answering.activate {q : RequestRef} (ha : Answering S m q)
    (result : ConnectionRequestResult) : Answering S (m.activate q result) q := by
  have hself : (m.activate q result).requestAt q =
      { m.requestAt q with used := true, result := result } := Function.update_self ..
  refine ⟨ha.answers, ?_, ?_⟩
  · rw [hself]
    exact ha.waiting
  · rw [hself]
    exact ha.opens

theorem accept_changes (hS : S.Open) {q : RequestRef} (ha : Answering S m q) :
    Changes S m (m.accept q).1 := by
  rw [accept]
  split
  · exact .refl
  · exact (activate_changes hS.registers m ha.answers .accept).trans
      (onConnectionSolved_changes hS _ (ha.activate .accept) ..)

/-- An answer after the request became another one of its address and number. -/
theorem answer_changes (hS : S.Open) {q : RequestRef} (ha : Answering S m q)
    (request : NetConnectionRequest)
    (endpoint : request.remoteEndpoint = (m.requestAt q).remoteEndpoint)
    (number : request.internalPacket.connectionNumber =
      (m.requestAt q).internalPacket.connectionNumber)
    (used : request.used = (m.requestAt q).used) (result : ConnectionRequestResult) :
    Changes S m (({ m with requestAt := Function.update m.requestAt q request }.activate q
      result).onConnectionSolved q none 0 0).1 := by
  have hread := setRequest_changes hS.registers m ha.answers endpoint number used.trans
  have hself : ({ m with requestAt := Function.update m.requestAt q request } :
      NetManager).requestAt q = request := Function.update_self ..
  have ha' : Answering S { m with requestAt := Function.update m.requestAt q request } q := by
    refine ⟨ha.answers, ?_, ?_⟩
    · rw [hself, endpoint]
      exact ha.waiting
    · rw [hself, number]
      exact ha.opens
  generalize ({ m with requestAt := Function.update m.requestAt q request } : NetManager) = x
    at hread ha' ⊢
  exact (hread.trans (activate_changes hS.registers x ha'.answers result)).trans
    (onConnectionSolved_changes hS _ (ha'.activate result) ..)

/-- `accept_if_key`, whatever the reader of the request returned. -/
theorem answerKey_changes (hS : S.Open) {q : RequestRef} (ha : Answering S m q)
    (key : Option Bytes) (reader : NetDataReader) (expectedKey : Bytes) :
    Changes S m (if key = some expectedKey then
      ({ m with requestAt := Function.update m.requestAt q { m.requestAt q with
          internalPacket.data := reader } }.activate q .accept).onConnectionSolved q none 0 0
      else ((({ m with requestAt := Function.update m.requestAt q { m.requestAt q with
          internalPacket.data := reader } }.activate q .reject).onConnectionSolved q none 0 0).1,
        none)).1 := by
  have hanswer := answer_changes hS ha { m.requestAt q with internalPacket.data := reader } rfl
    rfl rfl
  by_cases hk : key = some expectedKey
  · rw [if_pos hk]
    exact hanswer .accept
  · rw [if_neg hk]
    exact hanswer .reject

theorem acceptIfKey_changes (hS : S.Open) {q : RequestRef} (ha : Answering S m q)
    (expectedKey : Bytes) : Changes S m (m.acceptIfKey q expectedKey).1 := by
  by_cases hu : (m.requestAt q).used
  · rw [acceptIfKey, if_pos hu]
  · unfold acceptIfKey
    simp only [if_neg hu]
    generalize (m.requestAt q).internalPacket.data.tryReadString = key
    exact answerKey_changes hS ha key.1 key.2 expectedKey

theorem reject_changes (hS : S.Open) {q : RequestRef} (ha : Answering S m q)
    (rejectData : Option Bytes) (offset size : ℕ) (force : Bool) :
    Changes S m (m.reject q rejectData offset size force) := by
  rw [reject]
  split
  · exact .refl
  · exact (activate_changes hS.registers m ha.answers _).trans
      (onConnectionSolved_changes hS _ (ha.activate _) ..)

theorem shutdownForce_live {p : NetPeer} (h : p.shutdownForce.2 ≠ .none) :
    p.connectionState = .outgoing ∨ p.connectionState = .connected := by
  rw [NetPeer.shutdownForce] at h
  cases hs : p.connectionState with
  | outgoing => exact .inl rfl
  | connected => exact .inr rfl
  | shutdownRequested => simp [hs] at h
  | disconnected => simp [hs] at h

theorem shutdownForce_ended {p : NetPeer} (h : p.shutdownForce.2 = .none) :
    p.shutdownForce.1 = p := by
  rw [NetPeer.shutdownForce] at h ⊢
  cases hs : p.connectionState with
  | outgoing => simp [hs] at h
  | connected => simp [hs] at h
  | shutdownRequested => rfl
  | disconnected => rfl

/-- A graceful shutdown ends the session before its packet is sent, so sending it disconnects
nobody. -/
theorem close_changes (hS : S.Open) {r : PeerRef} {p : NetPeer} {bytes : Bytes} {args : NetEvent}
    (registered : m.peers (m.peerAt r).endpoint.key = some r)
    (same : SameIdentity (m.peerAt r) p) (number : p.connectNumber = (m.peerAt r).connectNumber)
    (before : (m.peerAt r).connectionState = .outgoing ∨
      (m.peerAt r).connectionState = .connected)
    (after : p.connectionState = .shutdownRequested)
    (property : headerProperty bytes ≠ .connectAccept) (type : args.type = .disconnect)
    (peer : args.peer = some r) (plain : args.userData = 0) :
    Changes S m (((m.setPeer r p).sendRaw bytes (m.peerAt r).endpoint).1.createEvent args) := by
  obtain ⟨notes, hnotes, hplain, hx⟩ := sendRaw_inactive (m.setPeer r p) bytes
    (m.peerAt r).endpoint (fun q hq => by
      cases registered.symm.trans hq
      rw [setPeer_self, NetPeer.isConnected, after]
      decide)
  generalize ((m.setPeer r p).sendRaw bytes (m.peerAt r).endpoint).1 = x at hx ⊢
  obtain ⟨e, het, hep, hu, he⟩ := x.createEvent_eq args
  rw [he]
  refine .single (.close r p _ notes e hS.closes same number before (.inl after) (fun d hd => ?_)
    hnotes (het.trans type) (hep.trans peer) (hx.pushEvent e) ⟨_, registered⟩ (fun n hn => ?_))
  · rw [List.mem_singleton.mp hd]
    exact hS.plain _ _ property
  · rcases List.mem_append.mp hn with hn | hn
    · exact hplain n hn
    · rw [List.mem_singleton.mp hn]
      exact NetEvent.filled_of_peer (.inr (het.trans type)) (hep.trans peer) (hu.trans plain)

theorem disconnectPeer_changes (hS : S.Open) (hm : Consistent m) (address : NetAddress)
    (reason : DisconnectReason) (socketErrorCode : ℕ) (rejectData : Option Bytes)
    (offset size : ℕ) (eventData : Option NetPacket) :
    Changes S m (m.disconnectPeer address reason socketErrorCode false rejectData offset size
      eventData) := by
  rw [disconnectPeer]
  split
  · exact .refl
  · next r hr =>
    obtain ⟨-, hkey⟩ := hm.registered _ r hr
    rw [shutdown]
    by_cases hs : (m.peerAt r).shutdownForce.2 = .none
    · simp only [hs, decide_true, Bool.or_true, if_true]
      rw [shutdownForce_ended hs, setPeer_eq, noteShutdown, if_pos rfl]
      exact (m.poolRecycleOption_aside _).changes
    · simp only [hs, decide_false, Bool.or_false, Bool.false_eq_true, if_false]
      have hpacket := fillShutdownPacket_property (m.peerAt r) rejectData offset size
      generalize (m.peerAt r).fillShutdownPacket rejectData offset size = packet at hpacket ⊢
      have hlive := shutdownForce_live hs
      rw [noteShutdown, if_neg hs]
      refine close_changes hS (by rw [hkey]; exact hr) ⟨rfl, rfl, rfl, rfl, fun hw => ?_⟩ rfl hlive rfl
        (headerProperty_wire_ne hpacket.2 (by rw [hpacket.1]; decide)) rfl rfl rfl
      exact { hw with
        shutdown := hpacket
        accept := fun q hq => ⟨(fun h => by cases h), (hw.accept q hq).2⟩
        mergeSingle := fun hc => ⟨(fun h => by cases h), (hw.mergeSingle hc).2⟩
        outgoing := fun h => by cases h
        connected := fun h => by cases h }

theorem disconnectAll_changes (hS : S.Open) (hm : Consistent m) (data : Option Bytes)
    (offset size : ℕ) : Changes S m (m.disconnectAll data offset size) := by
  rw [disconnectAll]
  generalize m.peerAddresses m.peerCount m.headPeer = addresses
  induction addresses generalizing m with
  | nil => exact .refl
  | cons addr addresses ih =>
    have hfirst := disconnectPeer_changes hS hm addr .disconnectPeerCalled 0 data offset size none
    exact hfirst.trans (ih (Changes.consistent hfirst hm))

end Registry

end NetManager

end LiteNet.Manager
