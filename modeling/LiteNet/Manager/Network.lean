import LiteNet.Manager.Isolation
import LiteNet.Wire.HandshakeRoundTrip

/-! # Hosts that talk to each other

Several managers, each with an address of its own, and a network that may lose,
duplicate, delay and reorder whatever they send. Datagrams of anyone else may arrive
too, but not from the address of a host.
-/

namespace LiteNet.Wire

/-- What a packet with the bytes of an accept is decoded to. -/
theorem NetConnectAcceptPacket.fromData_of_wire {packet : NetPacket} {connectTime : Int64}
    {connectNum : UInt8} {localPeerId : ℕ}
    (h : packet.wire = (make connectTime connectNum localPeerId).wire)
    {accept : NetConnectAcceptPacket} (hdata : fromData packet = some accept) :
    accept.connectionTime = connectTime ∧ accept.connectionNumber = connectNum := by
  have htime : packet.getInt64 1 = connectTime := by
    rw [NetPacket.getInt64, NetPacket.getValueAt_of_wire h (by rw [size_make]; decide)]
    exact getInt64_make connectTime connectNum localPeerId
  have hnumber : packet.byte 9 = connectNum := by
    rw [NetPacket.byte_of_wire h (by rw [size_make]; decide)]
    exact byte_make_number connectTime connectNum localPeerId
  rw [fromData] at hdata
  split at hdata
  · cases hdata
  · dsimp only at hdata
    split at hdata
    · cases hdata
    · split at hdata
      · cases hdata
      · split at hdata
        · cases hdata
        · cases hdata
          exact ⟨htime, hnumber⟩

/-- Only a packet of the size of an accept is decoded. -/
theorem NetConnectAcceptPacket.size_of_fromData {packet : NetPacket}
    {accept : NetConnectAcceptPacket} (h : fromData packet = some accept) :
    packet.size = connectAcceptHeaderSize := by
  rw [fromData] at h
  split at h
  · cases h
  · next hsize => exact not_not.mp hsize

end LiteNet.Wire

namespace LiteNet.Manager
open Library Wire Relation

namespace NetManager

/-- A session with the address `k` was accepted under a connect time and a number. -/
def Accepted (m : NetManager) (k : NetAddress.Key) (time : Int64) (number : UInt8) : Prop :=
  ∃ s < m.peerCount, (m.peerAt s).connectAcceptPacket.isSome = true ∧
    (m.peerAt s).endpoint.key = k ∧ (m.peerAt s).connectTime = time ∧
      (m.peerAt s).connectNumber = number

/-- An accept is sent for a session that was accepted, and to the remote of that session. -/
def Vouches (m : NetManager) (d : Datagram) : Prop :=
  headerProperty d.bytes = .connectAccept → ∃ s < m.peerCount, ∃ packet,
    (m.peerAt s).connectAcceptPacket = some packet ∧ d = ⟨(m.peerAt s).endpoint, packet.wire⟩

/-- A scope in which accepts are vouched for, and sessions are established as `accepts` says. -/
def acceptScope (accepts : Int64 → UInt8 → Prop) : Scope :=
  { fullScope with emits := Vouches, accepts := accepts }

theorem acceptScope_open (accepts : Int64 → UInt8 → Prop) : (acceptScope accepts).Open where
  closes := trivial
  registers := trivial
  opens := fun _ _ => trivial
  plain := fun _ _ hne hp => absurd hp hne
  accept := fun _ r packet hr hp _ => ⟨r, hr, packet, hp, rfl⟩

section Changes

variable {S : Scope} {accepts : Int64 → UInt8 → Prop} {m m' : NetManager}

theorem Vouches.mono (h : Evolves S m m') {d : Datagram} (hd : Vouches m d) : Vouches m' d := by
  intro hp
  obtain ⟨s, hs, packet, hpacket, rfl⟩ := hd hp
  have hpeer := h.peer s hs
  refine ⟨s, hs.trans_le h.count, packet, hpeer.connectAcceptPacket.trans hpacket, ?_⟩
  rw [hpeer.endpoint]

/-- A session that was accepted stays accepted under its number. -/
theorem Accepted.mono (hm : Consistent m) (h : Evolves S m m') {k : NetAddress.Key} {time : Int64}
    {number : UInt8} (ha : m.Accepted k time number) : m'.Accepted k time number := by
  obtain ⟨s, hs, hsome, hk, htime, hnumber⟩ := ha
  have hpeer := h.peer s hs
  obtain ⟨packet, hpacket⟩ := Option.isSome_iff_exists.mp hsome
  have houtgoing := ((hm.wellFormed s hs).accept packet hpacket).1
  refine ⟨s, hs.trans_le h.count, ?_, ?_, ?_, ?_⟩
  · rw [hpeer.connectAcceptPacket, hsome]
  · rw [hpeer.endpoint, hk]
  · rw [hpeer.connectTime, htime]
  · rw [hpeer.number (.inl houtgoing), hnumber]

/-- What a change sends is allowed before it or after it. -/
theorem Change.emitted (h : Change S m m') :
    ∃ ds, m'.sent = m.sent ++ ds ∧ ∀ d ∈ ds, S.emits m d ∨ S.emits m' d := by
  cases h with
  | aside h => exact ⟨[], by simp [h.sent], by simp⟩
  | register same registers peers requests keeps => exact ⟨[], by simp [same.sent], by simp⟩
  | emit d emits =>
    exact ⟨[d], rfl, fun d' hd => .inl (List.mem_singleton.mp hd ▸ emits)⟩
  | close r p ds notes e closes same number before after emits about type peer result =>
    exact ⟨ds, result.sent, fun d hd => .inl (emits d hd)⟩
  | create p ds notes es registers opens wellFormed emits about announce result peers own others
      keeps => exact ⟨ds, result.sent, fun d hd => .inr (emits d hd)⟩
  | _ => exact ⟨[], (List.append_nil _).symm, by simp⟩

theorem Change.vouches (h : Change (acceptScope accepts) m m')
    (hsent : ∀ d ∈ m.sent, Vouches m d) : ∀ d ∈ m'.sent, Vouches m' d := by
  obtain ⟨ds, hds, hall⟩ := Change.emitted h
  have hevolves := h.evolves
  rw [hds]
  intro d hd
  rcases List.mem_append.mp hd with hd | hd
  · exact (hsent d hd).mono hevolves
  · rcases hall d hd with hbefore | hafter
    · exact Vouches.mono hevolves hbefore
    · exact hafter

theorem Changes.vouches (h : Changes (acceptScope accepts) m m')
    (hsent : ∀ d ∈ m.sent, Vouches m d) : ∀ d ∈ m'.sent, Vouches m' d :=
  preserved_of_run (P := fun m => ∀ d ∈ m.sent, Vouches m d)
    (fun _ _ hsent hs => Change.vouches hs hsent) hsent h

/-- The peer `r` is in a session that it asked for. -/
structure Joined (m : NetManager) (r : PeerRef) : Prop where
  made : r < m.peerCount
  connected : (m.peerAt r).connectionState = .connected
  asked : (m.peerAt r).connectAcceptPacket = none

/-- Whoever joined a session since `m` did so by an accept. -/
def JoinsBy (accepts : Int64 → UInt8 → Prop) (m m' : NetManager) : Prop :=
  ∀ r, Joined m' r → Joined m r ∨ accepts (m'.peerAt r).connectTime (m'.peerAt r).connectNumber

theorem Change.joins (h : Change S m m') : JoinsBy S.accepts m m' := by
  have hset : ∀ {r p}, SameIdentity (m.peerAt r) p →
      (p.connectionState = .connected → (m.peerAt r).connectionState = .connected ∨
        S.accepts p.connectTime p.connectNumber) →
      ∀ s, s < m.peerCount → ((m.setPeer r p).peerAt s).connectionState = .connected →
        ((m.setPeer r p).peerAt s).connectAcceptPacket = none → Joined m s ∨
          S.accepts ((m.setPeer r p).peerAt s).connectTime
            ((m.setPeer r p).peerAt s).connectNumber := by
    intro r p same hstate s hs hconnected hasked
    by_cases he : s = r
    · subst he
      rw [setPeer_self] at hconnected hasked ⊢
      rw [same.connectAcceptPacket] at hasked
      exact (hstate hconnected).imp_left (fun hc => ⟨hs, hc, hasked⟩)
    · rw [setPeer_of_ne m he] at hconnected hasked
      exact .inl ⟨hs, hconnected, hasked⟩
  rintro s ⟨hs, hconnected, hasked⟩
  cases h with
  | aside h =>
    rw [h.peerCount] at hs
    rw [h.peerAt] at hconnected hasked
    exact .inl ⟨hs, hconnected, hasked⟩
  | register same registers peers requests keeps =>
    rw [same.peerCount] at hs
    rw [same.peerAt] at hconnected hasked
    exact .inl ⟨hs, hconnected, hasked⟩
  | touch r same state number =>
    exact hset same (fun hc => .inl (state.symm.trans hc)) s hs hconnected hasked
  | close r p ds notes e closes same number before after emits about type peer result =>
    rw [result.peerCount] at hs
    rw [result.peerAt] at hconnected hasked ⊢
    refine hset same (fun hc => ?_) s hs hconnected hasked
    rcases after with ha | ha <;> cases ha.symm.trans hc
  | finish r closes before => exact hset (.finish _) nofun s hs hconnected hasked
  | establish r p e same accepts before after type peer =>
    exact hset same (fun _ => .inr accepts) s hs hconnected hasked
  | create p ds notes es registers opens wellFormed emits about announce result peers own others
      keeps plain begun =>
    have hcount : m'.peerCount = m.peerCount + 1 := result.peerCount
    have hpeerAt : m'.peerAt = Function.update m.peerAt m.peerCount p := result.peerAt
    rw [hpeerAt] at hconnected hasked
    rcases Nat.lt_succ_iff_lt_or_eq.mp (hcount ▸ hs) with hlt | rfl
    · rw [Function.update_of_ne hlt.ne] at hconnected hasked
      exact .inl ⟨hlt, hconnected, hasked⟩
    · rw [Function.update_self] at hconnected hasked
      have hsome := begun hconnected
      rw [hasked] at hsome
      cases hsome
  | _ => exact .inl ⟨hs, hconnected, hasked⟩

theorem Changes.joins (h : Changes S m m') : JoinsBy S.accepts m m' := by
  induction h with
  | refl => exact fun r hr => .inl hr
  | @tail x y _ hs ih =>
    intro r hr
    rcases Change.joins hs r hr with hx | ha
    · have hpeer := hs.evolves.peer r hx.made
      have hnumber : (y.peerAt r).connectNumber = (x.peerAt r).connectNumber :=
        hpeer.number (.inl (by rw [hx.connected]; nofun))
      rw [hpeer.connectTime, hnumber]
      exact ih r hx
    · exact .inr ha

end Changes

end NetManager

/-- Hosts with addresses that differ. -/
structure Hosts (ι : Type*) where
  address : ι → NetAddress
  distinct : Function.Injective (fun i => (address i).key)

variable {ι : Type*}

/-- A host acts on its own, a datagram of one host reaches another, or one of a stranger does. -/
inductive NetworkAction (ι : Type*) where
  | act (i : ι) (a : NetManager.Action)
  | deliver (i j : ι) (d : Datagram)
  | stray (j : ι) (bytes : Bytes) (addr : NetAddress)

namespace Network

open NetManager

def Initial (net : ι → NetManager) : Prop := ∀ i, Fresh (net i)

/-- Every session that a host joined was accepted by the host it is with. -/
def Agreeing (hosts : Hosts ι) (net : ι → NetManager) : Prop :=
  ∀ i j r, Joined (net i) r → ((net i).peerAt r).endpoint.key = (hosts.address j).key →
    (net j).Accepted (hosts.address i).key ((net i).peerAt r).connectTime
      ((net i).peerAt r).connectNumber

structure Invariant (hosts : Hosts ι) (net : ι → NetManager) : Prop where
  consistent : ∀ i, Consistent (net i)
  registered : ∀ i, Registered (net i)
  vouches : ∀ i, ∀ d ∈ (net i).sent, Vouches (net i) d
  agreeing : Agreeing hosts net

variable {hosts : Hosts ι} {net net' : ι → NetManager}

theorem Initial.invariant (h : Initial net) : Invariant hosts net where
  consistent := fun i => (h i).toInitial.consistent
  registered := fun i => (h i).registered
  vouches := by
    intro i d hd
    rw [(h i).sent] at hd
    cases hd
  agreeing := by
    intro i j r hr
    have hlt := hr.made
    rw [(h i).peerCount] at hlt
    exact absurd hlt (Nat.not_lt_zero r)

variable [DecidableEq ι]

/-- A datagram is received if it was ever sent to the receiver, however often and however late; what
does not fit the buffer of `recvfrom` is cut off. -/
def act (hosts : Hosts ι) (net : ι → NetManager) : NetworkAction ι → ι → NetManager
  | .act i a => Function.update net i ((net i).act a)
  | .deliver i j d => Function.update net j
      ((net j).act (.receive (d.bytes.take maxPacketSize) (hosts.address i)))
  | .stray j bytes addr => Function.update net j ((net j).act (.receive bytes addr))

def Enabled (hosts : Hosts ι) (net : ι → NetManager) : NetworkAction ι → Prop
  | .act i a => a.Enabled (net i) ∧ ∀ bytes addr, a ≠ .receive bytes addr
  | .deliver i j d => d ∈ (net i).sent ∧ d.endpoint.key = (hosts.address j).key
  | .stray _ bytes addr => bytes.length ≤ maxPacketSize ∧ ∀ i, (hosts.address i).key ≠ addr.key

def Step (hosts : Hosts ι) (net net' : ι → NetManager) : Prop :=
  ∃ a, Enabled hosts net a ∧ act hosts net a = net'

/-- One host steps; whatever it joins by the step was accepted by the other side. -/
theorem Invariant.step (h : Invariant hosts net) {i : ι} {a : Action} (ha : a.Enabled (net i))
    (accepts : Int64 → UInt8 → Prop)
    (hpermits : Permits (acceptScope accepts) (net i) a)
    (hjoins : ∀ r j, Joined ((net i).act a) r → ¬ Joined (net i) r →
      accepts (((net i).act a).peerAt r).connectTime (((net i).act a).peerAt r).connectNumber →
      (((net i).act a).peerAt r).endpoint.key = (hosts.address j).key →
      (net j).Accepted (hosts.address i).key (((net i).act a).peerAt r).connectTime
        (((net i).act a).peerAt r).connectNumber) :
    Invariant hosts (Function.update net i ((net i).act a)) := by
  have hchanges := act_changes (acceptScope_open accepts) (h.consistent i) ha hpermits
  have hevolves := Changes.evolves hchanges
  have hkept : ∀ {P : NetManager → Prop}, (∀ j, P (net j)) → P ((net i).act a) →
      ∀ j, P (Function.update net i ((net i).act a) j) := by
    intro P hall hi j
    by_cases hj : j = i
    · rw [hj, Function.update_self]
      exact hi
    · rw [Function.update_of_ne hj]
      exact hall j
  have haccepted : ∀ j k time number, (net j).Accepted k time number →
      (Function.update net i ((net i).act a) j).Accepted k time number := by
    intro j k time number hj
    by_cases he : j = i
    · subst he
      rw [Function.update_self]
      exact hj.mono (h.consistent j) hevolves
    · rwa [Function.update_of_ne he]
  refine ⟨hkept h.consistent (Changes.consistent hchanges (h.consistent i)),
    hkept h.registered (Changes.registered hchanges (h.registered i)),
    hkept (P := fun m => ∀ d ∈ m.sent, Vouches m d) h.vouches
      (Changes.vouches hchanges (h.vouches i)), ?_⟩
  intro i' j r hr hkey
  apply haccepted
  by_cases hi : i' = i
  · subst hi
    rw [Function.update_self] at hr hkey ⊢
    by_cases hold : Joined (net i') r
    · have hpeer := hevolves.peer r hold.made
      rw [hpeer.endpoint] at hkey
      rw [hpeer.connectTime, hpeer.number (.inl (by rw [hold.connected]; nofun))]
      exact h.agreeing i' j r hold hkey
    · have hby := (Changes.joins hchanges r hr).resolve_left hold
      exact hjoins r j hr hold hby hkey
  · rw [Function.update_of_ne hi] at hr hkey ⊢
    exact h.agreeing i' j r hr hkey

/-- A packet received from an address lets only peers of this address join. -/
theorem joined_from {m : NetManager} (hm : Consistent m) (hreg : Registered m) {bytes : Bytes}
    {addr : NetAddress} (hbytes : bytes.length ≤ maxPacketSize) {r : PeerRef}
    (hr : Joined (m.act (.receive bytes addr)) r) (hold : ¬ Joined m r) :
    ((m.act (.receive bytes addr)).peerAt r).endpoint.key = addr.key := by
  have htouches := act_touches hm hreg (a := .receive bytes addr) hbytes
  by_contra hne
  rcases lt_or_ge r m.peerCount with hlt | hge
  · rw [htouches.endpoint r hlt] at hne
    have hsame := htouches.peerAt r hlt hne
    refine hold ⟨hlt, ?_, ?_⟩
    · rw [← hsame, hr.connected]
    · rw [← hsame, hr.asked]
  · exact hne (htouches.made r hr.made hge)

/-- An accept that is delivered is one that its sender vouches for. -/
theorem accepted_of_delivered {m m' : NetManager} (hm : Consistent m) {d : Datagram}
    (hd : Vouches m d) {k : NetAddress.Key} (hto : d.endpoint.key = k)
    (hproperty : (m'.receivePacket (d.bytes.take maxPacketSize)).property = .connectAccept)
    {accept : NetConnectAcceptPacket}
    (haccept : NetConnectAcceptPacket.fromData
      (m'.receivePacket (d.bytes.take maxPacketSize)) = some accept) :
    m.Accepted k accept.connectionTime accept.connectionNumber := by
  have hwire := receivePacket_wire (m := m') (List.length_take_le maxPacketSize d.bytes)
  have hsize := NetConnectAcceptPacket.size_of_fromData haccept
  generalize m'.receivePacket (d.bytes.take maxPacketSize) = packet at hproperty haccept hwire hsize
  have hone : 1 ≤ packet.size := by
    rw [hsize]
    decide
  have hheader : headerProperty d.bytes = .connectAccept := by
    have hpos : 0 < maxPacketSize := by decide
    rw [← headerProperty_take d.bytes hpos, ← hwire,
      NetPacket.headerProperty_wire packet hone, hproperty]
  obtain ⟨s, hs, sent, hpacket, rfl⟩ := hd hheader
  obtain ⟨-, id, rfl⟩ := (hm.wellFormed s hs).accept sent hpacket
  have hlength : (NetConnectAcceptPacket.make (m.peerAt s).session.connectTime
      (m.peerAt s).session.connectNumber id).wire.length ≤ maxPacketSize := by
    rw [NetPacket.length_wire, NetConnectAcceptPacket.size_make]
    decide
  rw [List.take_of_length_le hlength] at hwire
  obtain ⟨htime, hnumber⟩ := NetConnectAcceptPacket.fromData_of_wire hwire haccept
  exact ⟨s, hs, by rw [hpacket]; rfl, hto, htime.symm, hnumber.symm⟩

theorem Step.invariant (h : Step hosts net net') (hi : Invariant hosts net) :
    Invariant hosts net' := by
  obtain ⟨a, ha, rfl⟩ := h
  cases a with
  | act i a =>
    obtain ⟨henabled, hown⟩ := ha
    apply hi.step henabled (fun _ _ => False)
    · exact ⟨fun bytes addr he => absurd he (hown bytes addr), fun _ _ => ⟨id, fun _ => trivial⟩,
        fun _ _ _ _ _ _ _ => trivial, fun _ _ => ⟨trivial, fun _ _ => trivial, trivial⟩⟩
    · exact fun _ _ _ _ haccepts => haccepts.elim
  | stray j bytes addr =>
    obtain ⟨hbytes, hstrange⟩ := ha
    apply hi.step (a := .receive bytes addr) hbytes (fun _ _ => True)
    · exact ⟨fun _ _ _ => ⟨fun _ _ _ => trivial, fun _ _ _ _ _ => trivial⟩,
        fun _ _ => ⟨id, fun _ => trivial⟩,
        fun _ _ _ _ _ _ _ => trivial, fun _ _ => ⟨trivial, fun _ _ => trivial, trivial⟩⟩
    · intro r l hr hold _ hkey
      have hfrom := joined_from (hi.consistent j) (hi.registered j) hbytes hr hold
      exact absurd (hkey.symm.trans hfrom) (hstrange l)
  | deliver i j d =>
    obtain ⟨hsent, hto⟩ := ha
    have hbytes : (d.bytes.take maxPacketSize).length ≤ maxPacketSize := List.length_take_le ..
    apply hi.step (a := .receive (d.bytes.take maxPacketSize) (hosts.address i)) hbytes
      (fun time number => (net i).Accepted (hosts.address j).key time number)
    · refine ⟨?_, fun _ _ => ⟨id, fun _ => trivial⟩, fun _ _ _ _ _ _ _ => trivial,
        fun _ _ => ⟨trivial, fun _ _ => trivial, trivial⟩⟩
      intro bytes addr he
      cases he
      refine ⟨fun hproperty accept haccept => ?_, fun _ _ _ _ _ => trivial⟩
      exact accepted_of_delivered (hi.consistent i) (hi.vouches i d hsent) hto hproperty haccept
    · intro r l hr hold haccepts hkey
      have hfrom := joined_from (hi.consistent j) (hi.registered j) hbytes hr hold
      rwa [hosts.distinct (hkey.symm.trans hfrom)]

theorem invariant_of_reachable (h : Reachable Initial (Step hosts) net) : Invariant hosts net :=
  h.invariant (fun _ hi => hi.invariant) (fun _ _ hi hs => hs.invariant hi)

/-- However packets are lost, repeated, delayed and mixed up: a host that believes to be connected to
another one was accepted there, under the time and the number of its session. -/
theorem joined_accepted (h : Reachable Initial (Step hosts) net) {i j : ι} {r : PeerRef}
    (hr : Joined (net i) r)
    (hkey : ((net i).peerAt r).endpoint.key = (hosts.address j).key) :
    (net j).Accepted (hosts.address i).key ((net i).peerAt r).connectTime
      ((net i).peerAt r).connectNumber :=
  (invariant_of_reachable h).agreeing i j r hr hkey

/-- No two sessions with an address were accepted under one connect time. -/
def AcceptsOnce (m : NetManager) : Prop :=
  ∀ s < m.peerCount, ∀ s' < m.peerCount, (m.peerAt s).connectAcceptPacket.isSome = true →
    (m.peerAt s').connectAcceptPacket.isSome = true →
    (m.peerAt s).endpoint.key = (m.peerAt s').endpoint.key →
    (m.peerAt s).connectTime = (m.peerAt s').connectTime → s = s'

/-- Where a time is not accepted twice, both sides of a session have one number. -/
theorem numbers_agree (h : Reachable Initial (Step hosts) net) {i j : ι} {r s : PeerRef}
    (hr : Joined (net i) r)
    (hkey : ((net i).peerAt r).endpoint.key = (hosts.address j).key)
    (hs : s < (net j).peerCount)
    (haccepted : ((net j).peerAt s).connectAcceptPacket.isSome = true)
    (hother : ((net j).peerAt s).endpoint.key = (hosts.address i).key)
    (htime : ((net j).peerAt s).connectTime = ((net i).peerAt r).connectTime)
    (once : AcceptsOnce (net j)) :
    ((net j).peerAt s).connectNumber = ((net i).peerAt r).connectNumber := by
  obtain ⟨s', hs', hsome, hk, ht, hn⟩  :=
    (invariant_of_reachable h).agreeing i j r hr hkey
  have hsame : s = s' := once s hs s' hs' haccepted hsome (hother.trans hk.symm)
    (htime.trans ht.symm)
  rw [hsame, hn]

def twoHosts : Hosts Bool where
  address := fun server => if server then ⟨2, 1, 2, 0⟩ else ⟨2, 1, 3, 0⟩
  distinct := fun a b h => by
    cases a <;> cases b <;> first | rfl | exact absurd h (by decide)

def idleHosts (_ : Bool) : NetManager := .new (.const 5) (.const 0) (.const .ok)

/-- The last datagram of a host reaches the other one. -/
def deliverLast (net : Bool → NetManager) (i : Bool) : Bool → NetManager :=
  act twoHosts net (.deliver i (!i) ((net i).sent.getLastD ⟨⟨2, 0, 0, 0⟩, []⟩))

def askingHosts : Bool → NetManager := act twoHosts idleHosts (.act false (.connect ⟨2, 1, 2, 0⟩ [] 0))

def acceptingHosts : Bool → NetManager :=
  act twoHosts (deliverLast askingHosts false) (.act true (.accept 0))

def joinedHosts : Bool → NetManager := deliverLast acceptingHosts true

theorem deliverLast_step {net : Bool → NetManager} {i : Bool} (hsent : (net i).sent ≠ [])
    (hto : ((net i).sent.getLastD ⟨⟨2, 0, 0, 0⟩, []⟩).endpoint.key = (twoHosts.address (!i)).key) :
    Step twoHosts net (deliverLast net i) := by
  refine ⟨.deliver i (!i) _, ⟨?_, hto⟩, rfl⟩
  rw [List.getLastD_eq_getLast?, List.getLast?_eq_some_getLast hsent, Option.getD_some]
  exact List.getLast_mem hsent

theorem joinedHosts_reachable : Reachable Initial (Step twoHosts) joinedHosts := by
  have hasking : Reachable Initial (Step twoHosts) askingHosts :=
    (Reachable.initial (fun _ => fresh_new _ _ _)).tail
      ⟨.act false (.connect _ _ _), ⟨trivial, nofun⟩, rfl⟩
  have hasked : Step twoHosts askingHosts (deliverLast askingHosts false) :=
    deliverLast_step (by decide +kernel) (by decide +kernel)
  have haccepting : Reachable Initial (Step twoHosts) acceptingHosts :=
    (hasking.tail hasked).tail
      ⟨.act true (.accept 0), ⟨show 0 < _ by decide +kernel, nofun⟩, rfl⟩
  exact haccepting.tail (deliverLast_step (by decide +kernel) (by decide +kernel))

theorem joinedHosts_joined : Joined (joinedHosts false) 0 where
  made := by decide +kernel
  connected := by decide +kernel
  asked := Option.isNone_iff_eq_none.mp (by decide +kernel)

theorem joined_accepted_joinedHosts : (joinedHosts true).Accepted (twoHosts.address false).key
    ((joinedHosts false).peerAt 0).connectTime ((joinedHosts false).peerAt 0).connectNumber :=
  joined_accepted (j := true) joinedHosts_reachable joinedHosts_joined (by decide +kernel)

theorem numbers_agree_joinedHosts : ((joinedHosts true).peerAt 0).connectNumber =
    ((joinedHosts false).peerAt 0).connectNumber := by
  have hone : (joinedHosts true).peerCount = 1 := by decide +kernel
  apply numbers_agree (j := true) joinedHosts_reachable joinedHosts_joined (by decide +kernel)
    (by decide +kernel) (by decide +kernel) (by decide +kernel) (by decide +kernel)
  intro s hs s' hs' _ _ _ _
  rw [hone] at hs hs'
  omega

end Network

end LiteNet.Manager
