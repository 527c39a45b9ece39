import LiteNet.Manager.DispatchChanges

/-! # What the application hears of a session

The events of a session come in order as long as nothing is reported for a peer that
still waits for its accept. `process_packet` lets such a peer report data, so the
order depends on what arrives before the accept.
-/

namespace LiteNet.Manager
open Library Wire Channels Relation

/-- The events that come between the first and the last one of a session. -/
def NetEvent.Reports (e : NetEvent) : Prop :=
  e.type = .receive ∨ e.type = .connectionLatencyUpdated

/-- Two events of one session, in the order in which they may be queued. -/
structure NetEvent.Precedes (e e' : NetEvent) : Prop where
  connect : e'.type = .connect → e.type ≠ .connect ∧ ¬ e.Reports
  disconnect : e'.type = .disconnect → e.type ≠ .disconnect
  reports : e'.Reports → e.type ≠ .disconnect

/-- What was queued before an event of the session of `r`: before the `CONNECT` no end of it, before
a report its `CONNECT`. -/
structure NetEvent.Introduced (r : PeerRef) (before : List NetEvent) (e : NetEvent) : Prop where
  connect : e.peer = some r → e.type = .connect →
    ∀ c ∈ before, c.peer = some r → c.type ≠ .disconnect
  reports : e.peer = some r → e.Reports → ∃ c ∈ before, c.peer = some r ∧ c.type = .connect

theorem NetEvent.introduced_of_not_about {e : NetEvent} {r : PeerRef} (h : ¬ e.About r)
    (before : List NetEvent) : e.Introduced r before where
  connect := fun peer ht => absurd ⟨peer, .inl ht⟩ h
  reports := fun peer ht => absurd ⟨peer, .inr (.inr ht)⟩ h

theorem NetEvent.precedes_of_not_about {e e' : NetEvent} {r : PeerRef} (peer : e'.peer = some r)
    (h : ¬ e'.About r) : e.Precedes e' where
  connect := fun ht => absurd ⟨peer, .inl ht⟩ h
  disconnect := fun ht => absurd ⟨peer, .inr (.inl ht)⟩ h
  reports := fun ht => absurd ⟨peer, .inr (.inr ht)⟩ h

theorem NetEvent.not_about_of_ne {e : NetEvent} {r r' : PeerRef} (peer : e.peer = some r')
    (hne : r ≠ r') : ¬ e.About r := by
  rintro ⟨h, -⟩
  rw [peer] at h
  exact hne (Option.some.inj h).symm

namespace NetManager

variable {m m' : NetManager} {r : PeerRef}

/-- At most one `CONNECT` and at most one `DISCONNECT` are queued for `r`, and what is reported
comes after the one and before the other. -/
def InOrder (m : NetManager) (r : PeerRef) : Prop :=
  m.events.Pairwise (fun e e' => e.peer = some r → e'.peer = some r → e.Precedes e')

/-- Every event of the session of `r` is introduced. -/
def Introduced (m : NetManager) (r : PeerRef) : Prop :=
  ∀ before e, before ++ [e] <+: m.events → e.Introduced r before

/-- No session of `r` was established yet. -/
def Awaits (m : NetManager) (r : PeerRef) : Prop :=
  m.peerCount ≤ r ∨ (m.peerAt r).connectionState = .outgoing

def Established (m : NetManager) (r : PeerRef) : Prop :=
  r < m.peerCount ∧ (m.peerAt r).connectionState = .connected

/-- Events that are not about `r` change nothing about its own. -/
theorem introduced_append {events notes : List NetEvent}
    (h : ∀ before e, before ++ [e] <+: events → e.Introduced r before)
    (about : ∀ e ∈ notes, ¬ e.About r) :
    ∀ before e, before ++ [e] <+: events ++ notes → e.Introduced r before := by
  induction notes using List.reverseRecOn with
  | nil => rwa [List.append_nil]
  | append_singleton notes e ih =>
    rw [← List.append_assoc]
    refine (forall_prefix_concat (events ++ notes) e).mpr ⟨?_, ?_⟩
    · exact ih (fun e' he' => about e' (List.mem_append_left [e] he'))
    · exact NetEvent.introduced_of_not_about (about e (List.mem_append_right notes (by simp))) _

/-- The events of a session go with its state. -/
structure Follows (m : NetManager) (r : PeerRef) : Prop where
  inOrder : InOrder m r
  introduced : Introduced m r
  awaits : Awaits m r → ∀ e ∈ m.events, ¬ e.About r
  established : Established m r → ∀ e ∈ m.events, e.peer = some r → e.type ≠ .disconnect
  opened : Established m r → ∃ e ∈ m.events, e.peer = some r ∧ e.type = .connect

section Follows

variable {notes : List NetEvent}

theorem Follows.note (h : Follows m r) (events : m'.events = m.events ++ notes)
    (about : ∀ e ∈ notes, ¬ e.About r) (awaits : Awaits m' r → Awaits m r)
    (established : Established m' r → Established m r) : Follows m' r := by
  constructor
  · rw [InOrder, events]
    refine List.pairwise_append.mpr ⟨h.inOrder, ?_, ?_⟩
    · apply List.pairwise_of_forall_mem_list
      intro e _ e' he' _ peer
      exact NetEvent.precedes_of_not_about peer (about e' he')
    · intro e _ e' he' _ peer
      exact NetEvent.precedes_of_not_about peer (about e' he')
  · rw [Introduced, events]
    exact introduced_append h.introduced about
  · intro hw e he
    rw [events] at he
    exact (List.mem_append.mp he).elim (h.awaits (awaits hw) e) (about e)
  · intro hs e he peer
    rw [events] at he
    rcases List.mem_append.mp he with he | he
    · exact h.established (established hs) e he peer
    · exact fun type => about e he ⟨peer, .inr (.inl type)⟩
  · intro hs
    obtain ⟨e, he, hconnect⟩ := h.opened (established hs)
    exact ⟨e, events ▸ List.mem_append_left notes he, hconnect⟩

theorem Follows.queue (h : Follows m r) {e : NetEvent} (events : m'.events = m.events ++ [e])
    (precedes : ∀ e' ∈ m.events, e'.peer = some r → e'.Precedes e)
    (introduced : e.Introduced r m.events) (awaits : ¬ Awaits m' r)
    (established : Established m' r → e.type ≠ .disconnect ∧
      ∀ e' ∈ m.events, e'.peer = some r → e'.type ≠ .disconnect)
    (opened : Established m' r → ∃ e' ∈ m'.events, e'.peer = some r ∧ e'.type = .connect) :
    Follows m' r := by
  constructor
  · rw [InOrder, events]
    refine List.pairwise_append.mpr ⟨h.inOrder, List.pairwise_singleton _ _, ?_⟩
    intro e' he' e'' he'' peer _
    rw [List.mem_singleton.mp he'']
    exact precedes e' he' peer
  · rw [Introduced, events]
    exact (forall_prefix_concat m.events e).mpr ⟨h.introduced, introduced⟩
  · exact fun hw => absurd hw awaits
  · intro hs e' he' peer
    rw [events] at he'
    rcases List.mem_append.mp he' with he' | he'
    · exact (established hs).2 e' he' peer
    · rw [List.mem_singleton.mp he']
      exact (established hs).1
  · exact opened

end Follows

/-- A scope in which nothing is reported before the session is established. -/
def timelyScope : Scope := { fullScope with early := False }

theorem timelyScope_open : timelyScope.Open := { fullScope_open with }

theorem Follows.disconnect_free (h : Follows m r) (hr : r < m.peerCount)
    (before : (m.peerAt r).connectionState = .outgoing ∨
      (m.peerAt r).connectionState = .connected) :
    ∀ e ∈ m.events, e.peer = some r → e.type ≠ .disconnect := by
  intro e he peer
  rcases before with hs | hs
  · exact fun type => h.awaits (.inr hs) e he ⟨peer, .inr (.inl type)⟩
  · exact h.established ⟨hr, hs⟩ e he peer

section Own

variable {e : NetEvent}

theorem Follows.reported (h : Follows m r) (hr : r < m.peerCount)
    (connected : (m.peerAt r).connectionState = .connected) (type : e.Reports) :
    Follows (m.pushEvent e) r := by
  have hfree := h.disconnect_free hr (.inr connected)
  apply h.queue rfl
  · intro e' he' peer
    refine ⟨fun ht => ?_, fun ht => ?_, fun _ => hfree e' he' peer⟩
    · rcases type with type | type <;> rw [type] at ht <;> cases ht
    · rcases type with type | type <;> rw [type] at ht <;> cases ht
  · refine ⟨fun _ ht => ?_, fun _ _ => h.opened ⟨hr, connected⟩⟩
    rcases type with type | type <;> rw [type] at ht <;> cases ht
  · rintro (hge | hout)
    · exact absurd hr (not_lt.mpr hge)
    · exact absurd (connected.symm.trans hout) (by decide)
  · intro _
    refine ⟨fun ht => ?_, hfree⟩
    rcases type with type | type <;> rw [type] at ht <;> cases ht
  · intro _
    obtain ⟨e', he', hconnect⟩ := h.opened ⟨hr, connected⟩
    exact ⟨e', List.mem_append_left [e] he', hconnect⟩

theorem Follows.closed (h : Follows m r) (hr : r < m.peerCount) {notes : List NetEvent}
    (before : (m.peerAt r).connectionState = .outgoing ∨
      (m.peerAt r).connectionState = .connected) (about : ∀ e ∈ notes, ¬ e.About r)
    (type : e.type = .disconnect) (count : m'.peerCount = m.peerCount)
    (after : (m'.peerAt r).connectionState = .shutdownRequested ∨
      (m'.peerAt r).connectionState = .disconnected)
    (events : m'.events = m.events ++ notes ++ [e]) : Follows m' r := by
  have hnotes : Follows { m with events := m.events ++ notes } r := h.note rfl about id id
  have hfree := hnotes.disconnect_free hr before
  apply hnotes.queue events
  · intro e' he' peer
    refine ⟨fun ht => ?_, fun _ => hfree e' he' peer, fun ht => ?_⟩
    · rw [type] at ht
      cases ht
    · rcases ht with ht | ht <;> rw [type] at ht <;> cases ht
  · refine ⟨fun _ ht => ?_, fun _ ht => ?_⟩
    · rw [type] at ht
      cases ht
    · rcases ht with ht | ht <;> rw [type] at ht <;> cases ht
  · rintro (hge | hout)
    · rw [count] at hge
      exact absurd hr (not_lt.mpr hge)
    · rcases after with ha | ha <;> rw [ha] at hout <;> cases hout
  · rintro ⟨-, hc⟩
    rcases after with ha | ha <;> rw [ha] at hc <;> cases hc
  · rintro ⟨-, hc⟩
    rcases after with ha | ha <;> rw [ha] at hc <;> cases hc

/-- A session begins for an object of which nothing was said. -/
theorem Follows.begun (h : Follows m r) (before : Awaits m r) {notes : List NetEvent}
    (about : ∀ e ∈ notes, ¬ e.About r) (type : e.type = .connect) (peer : e.peer = some r)
    (hr : r < m'.peerCount)
    (after : (m'.peerAt r).connectionState = .connected)
    (events : m'.events = m.events ++ notes ++ [e]) : Follows m' r := by
  have hnotes : Follows { m with events := m.events ++ notes } r := h.note rfl about id id
  have hnone := hnotes.awaits before
  apply hnotes.queue events
  · intro e' he' peer
    have habout := hnone e' he'
    refine ⟨fun _ => ⟨fun ht => habout ⟨peer, .inl ht⟩,
      fun ht => habout ⟨peer, .inr (.inr ht)⟩⟩, fun ht => ?_, fun ht => ?_⟩
    · rw [type] at ht
      cases ht
    · rcases ht with ht | ht <;> rw [type] at ht <;> cases ht
  · refine ⟨fun _ _ c hc peer ht => hnone c hc ⟨peer, .inr (.inl ht)⟩, fun _ ht => ?_⟩
    rcases ht with ht | ht <;> rw [type] at ht <;> cases ht
  · rintro (hge | hout)
    · exact absurd hr (not_lt.mpr hge)
    · rw [after] at hout
      cases hout
  · intro _
    refine ⟨fun ht => ?_, fun e' he' peer ht => hnone e' he' ⟨peer, .inr (.inl ht)⟩⟩
    rw [type] at ht
    cases ht
  · exact fun _ => ⟨e, events ▸ List.mem_append_right _ List.mem_cons_self, peer, type⟩

end Own

/-- A peer whose object stays as it is, in a manager that notes things about another one. -/
theorem Follows.other (h : Follows m r) {r' : PeerRef} {new : List NetEvent} (hne : r ≠ r')
    (peerAt : m'.peerAt r = m.peerAt r)
    (count : m'.peerCount = m.peerCount ∨ m.peerCount ≠ r ∧ m'.peerCount = m.peerCount + 1)
    (events : m'.events = m.events ++ new)
    (about : ∀ e ∈ new, (∀ r, ¬ e.About r) ∨ e.peer = some r') : Follows m' r := by
  apply h.note events
  · intro e he
    exact (about e he).elim (fun h => h r) (fun peer => NetEvent.not_about_of_ne peer hne)
  · rw [Awaits, Awaits, peerAt]
    apply Or.imp_left
    rcases count with hc | ⟨-, hc⟩ <;> rw [hc]
    · exact id
    · exact (Nat.le_succ _).trans
  · rw [Established, Established, peerAt]
    apply And.imp_left
    rcases count with hc | ⟨hlast, hc⟩ <;> rw [hc]
    · exact id
    · exact fun hlt => (Nat.lt_succ_iff.mp hlt).lt_of_ne hlast.symm

theorem Follows.same (h : Follows m r) (same : SameObjects m m') : Follows m' r := by
  constructor
  · rw [InOrder, same.events]
    exact h.inOrder
  · rw [Introduced, same.events]
    exact h.introduced
  · rw [Awaits, same.events, same.peerAt, same.peerCount]
    exact h.awaits
  · rw [Established, same.events, same.peerAt, same.peerCount]
    exact h.established
  · rw [Established, same.events, same.peerAt, same.peerCount]
    exact h.opened

/-- A peer that is set to another state, which is not the one before its session or in it. -/
theorem Follows.set (h : Follows m r) {r' : PeerRef} {p : NetPeer}
    (state : p.connectionState = (m.peerAt r').connectionState ∨
      p.connectionState = .disconnected) : Follows (m.setPeer r' p) r := by
  have hback : ∀ s, s ≠ ConnectionState.disconnected →
      ((m.setPeer r' p).peerAt r).connectionState = s → (m.peerAt r).connectionState = s := by
    intro s hs heq
    by_cases hr : r = r'
    · subst hr
      rw [setPeer_self] at heq
      rcases state with state | state
      · rw [← state, heq]
      · exact absurd (heq.symm.trans state) hs
    · rwa [setPeer_of_ne m hr] at heq
  exact ⟨h.inOrder, h.introduced, fun hw => h.awaits (hw.imp_right (hback _ (by decide))),
    fun hs => h.established ⟨hs.1, hback _ (by decide) hs.2⟩,
    fun hs => h.opened ⟨hs.1, hback _ (by decide) hs.2⟩⟩

theorem Change.follows (h : Change timelyScope m m') (hm : Consistent m)
    (hf : ∀ r, Follows m r) (r : PeerRef) : Follows m' r := by
  have hmade : ∀ {r'}, (∃ k, m.peers k = some r') → r' < m.peerCount :=
    fun ⟨k, hk⟩ => (hm.registered k _ hk).1
  cases h with
  | aside h => exact (hf r).same h.toSameObjects
  | register same registers peers requests keeps => exact (hf r).same same
  | emit d emits => exact { hf r with }
  | touch r' same state number => exact (hf r).set (.inl state)
  | finish r' closes before => exact (hf r).set (.inr rfl)
  | note e about =>
    refine (hf r).note (show (m.pushEvent e).events = m.events ++ [e] from rfl) ?_ ?_ ?_
    · intro e' he'
      rw [List.mem_singleton.mp he']
      exact about r
    · exact id
    · exact id
  | report r' e peer type state known =>
    by_cases hr : r = r'
    · subst hr
      exact (hf r).reported (hmade known) (state.resolve_right id) type
    · refine (hf r).other hr rfl (.inl rfl)
        (show (m.pushEvent e).events = m.events ++ [e] from rfl) ?_
      intro e' he'
      rw [List.mem_singleton.mp he']
      exact .inr peer
  | close r' p ds notes e closes same number before after emits about type peer result known =>
    by_cases hr : r = r'
    · subst hr
      have hself : m'.peerAt r = p := by
        rw [result.peerAt]
        exact m.setPeer_self r p
      exact (hf r).closed (hmade known) before (fun e he => about e he r) type result.peerCount
        (by rwa [hself]) result.events
    · apply (hf r).other hr ?_ (.inl result.peerCount)
        (result.events.trans (List.append_assoc ..)) ?_
      · rw [result.peerAt]
        exact Function.update_of_ne hr _ _
      · intro e' he'
        rcases List.mem_append.mp he' with he' | he'
        · exact .inl (about e' he')
        · rw [List.mem_singleton.mp he']
          exact .inr peer
  | establish r' p e same accepts before after type peer known =>
    by_cases hr : r = r'
    · subst hr
      refine (hf r).begun (.inr before) (fun _ he => absurd he List.not_mem_nil) type peer
        (hmade known) ?_ (congrArg (· ++ [e]) (List.append_nil m.events).symm)
      change ((m.setPeer r p).peerAt r).connectionState = _
      rwa [setPeer_self]
    · refine (hf r).other hr (m.setPeer_of_ne hr p) (.inl rfl)
        (show ((m.setPeer r' p).pushEvent e).events = m.events ++ [e] from rfl) ?_
      intro e' he'
      rw [List.mem_singleton.mp he']
      exact .inr peer
  | create p ds notes es registers opens wellFormed emits about announce result peers own others
      keeps =>
    have hcount : m'.peerCount = m.peerCount + 1 := result.peerCount
    have hpeerAt : m'.peerAt = Function.update m.peerAt m.peerCount p := result.peerAt
    by_cases hr : r = m.peerCount
    · have hself : m'.peerAt r = p := by rw [hpeerAt, hr, Function.update_self]
      rcases announce with ⟨rfl, hnot⟩ | ⟨hc, e, rfl, type, peer⟩
      · apply (hf r).note (result.events.trans (List.append_nil _)) (fun e he => about e he r)
        · exact fun _ => .inl hr.ge
        · rintro ⟨-, hc⟩
          rw [hself] at hc
          exact absurd hc hnot
      · refine (hf r).begun (.inl hr.ge) (fun e he => about e he r) type (hr ▸ peer) ?_
          (by rwa [hself]) result.events
        rw [hr, hcount]
        exact Nat.lt_succ_self _
    · apply (hf r).other hr ?_ (.inr ⟨Ne.symm hr, hcount⟩)
        (result.events.trans (List.append_assoc ..)) ?_
      · rw [hpeerAt, Function.update_of_ne hr]
      · intro e' he'
        rcases List.mem_append.mp he' with he' | he'
        · exact .inl (about e' he')
        · rcases announce with ⟨rfl, -⟩ | ⟨-, e, rfl, -, peer⟩
          · exact absurd he' List.not_mem_nil
          · rw [List.mem_singleton.mp he']
            exact .inr peer

theorem Changes.follows (h : Changes timelyScope m m') (hm : Consistent m)
    (hf : ∀ r, Follows m r) : ∀ r, Follows m' r := by
  induction h with
  | refl => exact hf
  | tail hc hs ih => exact Change.follows hs (Changes.consistent hc hm) ih

/-- A datagram that may report something reaches a peer that still waits for its accept. -/
structure Untimely (m : NetManager) (bytes : Bytes) (addr : NetAddress) : Prop where
  verify : (m.receivePacket bytes).verify = true
  carries : CarriesData (m.receivePacket bytes).property
  peer : ∃ r, m.tryGetPeer addr = some r ∧ (m.peerAt r).connectionState = .outgoing ∧
    (m.receivePacket bytes).connectionNumber = (m.peerAt r).connectNumber

/-- Anything happens except that data arrives before the accept. -/
def TimelyStep (m m' : NetManager) : Prop :=
  ∃ a : Action, a.Enabled m ∧ (∀ bytes addr, a = .receive bytes addr → ¬ Untimely m bytes addr) ∧
    m.act a = m'

theorem receiveLogic_unverified {bytes : Bytes} {addr : NetAddress}
    (h : (m.receivePacket bytes).verify = false) : Aside m (m.receiveLogic bytes addr) := by
  have hget := m.poolGetPacket_aside maxPacketSize
  have hrecycle := poolRecycle_aside (m.poolGetPacket maxPacketSize).2 (m.receivePacket bytes)
  rw [receiveLogic]
  change Aside m ((m.poolGetPacket maxPacketSize).2.onMessageReceived (m.receivePacket bytes) addr)
  rw [onMessageReceived, h]
  exact hget.trans hrecycle

theorem TimelyStep.changes (h : TimelyStep m m') (hm : Consistent m) :
    Changes timelyScope m m' := by
  obtain ⟨a, ha, timely, rfl⟩ := h
  by_cases hverify : ∀ bytes addr, a = .receive bytes addr → (m.receivePacket bytes).verify = true
  · refine act_changes timelyScope_open hm ha ⟨fun bytes addr hreceive => ⟨?_, ?_⟩,
      fun _ _ => ⟨id, fun _ => trivial⟩, ?_, ?_⟩
    · exact fun _ _ _ => trivial
    · intro r found outgoing number carries
      exact timely bytes addr hreceive ⟨hverify bytes addr hreceive, carries,
        r, found, outgoing, number⟩
    · exact fun _ _ _ _ _ _ _ => trivial
    · exact fun _ _ => ⟨trivial, fun _ _ => trivial, trivial⟩
  · push Not at hverify
    obtain ⟨bytes, addr, rfl, hverify⟩ := hverify
    exact (receiveLogic_unverified (Bool.not_eq_true _ ▸ hverify)).changes

theorem Initial.follows (h : m.Initial) (r : PeerRef) : Follows m r := by
  have hempty := h.events
  constructor
  · rw [InOrder, hempty]
    exact .nil
  · rw [Introduced, hempty]
    exact fun before e hb => by simp at hb
  · rw [hempty]
    exact fun _ e he => absurd he List.not_mem_nil
  · rw [hempty]
    exact fun _ e he => absurd he List.not_mem_nil
  · rintro ⟨hr, -⟩
    rw [h.peerCount] at hr
    exact absurd hr (Nat.not_lt_zero r)

theorem follows_of_reachable (h : Reachable Initial TimelyStep m) :
    Consistent m ∧ ∀ r, Follows m r :=
  h.invariant (P := fun m => Consistent m ∧ ∀ r, Follows m r)
    (fun _ hi => ⟨hi.consistent, hi.follows⟩)
    (fun _ _ hm hs => ⟨Changes.consistent (hs.changes hm.1) hm.1,
      Changes.follows (hs.changes hm.1) hm.1 hm.2⟩)

/-- In every run in which data keeps until the accept, the events of a session are in order, and its
state only ever moves forward. -/
theorem lifecycle_of_reachable (h : Reachable Initial TimelyStep m) (r : PeerRef) :
    InOrder m r ∧ ∀ m', Step m m' → r < m.peerCount →
      Moves (m.peerAt r).connectionState (m'.peerAt r).connectionState := by
  obtain ⟨hm, hfollows⟩ := follows_of_reachable h
  refine ⟨(hfollows r).inOrder, fun m' hs hr => ?_⟩
  exact ((Changes.evolves (Step.changes hs hm)).peer r hr).moves

theorem connectedClient_timely : Reachable Initial TimelyStep connectedClient := by
  refine ((Reachable.initial (initial_new _ _ _)).tail ⟨.connect _ _ _, trivial, ?_, rfl⟩).tail
    ⟨.receive _ _, show _ ≤ maxPacketSize by decide +kernel, ?_, rfl⟩
  · intro bytes addr h untimely
    obtain ⟨rfl, rfl⟩ := Action.receive.inj h
    exact absurd untimely.carries (by unfold CarriesData; decide +kernel)
  · exact fun _ _ h => nomatch h

/-- The client received data and then disconnected. -/
def endedClient : NetManager :=
  (connectedClient.act (.receive (NetPacket.new .unreliable 2 (by decide)).wire ⟨2, 1, 2, 0⟩)).act
    (.disconnectAll none 0 0)

theorem endedClient_timely : Reachable Initial TimelyStep endedClient := by
  refine (connectedClient_timely.tail
    ⟨.receive _ _, show _ ≤ maxPacketSize by decide +kernel, ?_, rfl⟩).tail
    ⟨.disconnectAll none 0 0, trivial, ?_, rfl⟩
  · intro bytes addr h untimely
    obtain ⟨rfl, rfl⟩ := Action.receive.inj h
    obtain ⟨-, -, r, hfound, houtgoing, -⟩ := untimely
    have hzero : connectedClient.tryGetPeer ⟨2, 1, 2, 0⟩ = some 0 := by decide +kernel
    cases hfound.symm.trans hzero
    exact absurd houtgoing (by decide +kernel)
  · exact fun _ _ h => by cases h

example : endedClient.events.map (fun e => (e.peer, e.type)) =
    [(some 0, .connect), (some 0, .receive), (some 0, .disconnect)] := by decide +kernel

theorem lifecycle_endedClient :
    InOrder endedClient 0 ∧ ∀ m', Step endedClient m' → 0 < endedClient.peerCount →
      Moves (endedClient.peerAt 0).connectionState (m'.peerAt 0).connectionState :=
  lifecycle_of_reachable endedClient_timely 0

/-- A client that was sent an unreliable packet of its session before the accept. -/
def hastyClient : NetManager :=
  (((NetManager.new (.const 5) (.const 0) (.const .ok)).act (.connect ⟨2, 1, 2, 0⟩ [] 0)).act
    (.receive (NetPacket.new .unreliable 2 (by decide)).wire ⟨2, 1, 2, 0⟩)).act
      (.receive (NetConnectAcceptPacket.make 5 0 0).wire ⟨2, 1, 2, 0⟩)

theorem hastyClient_reachable : Reachable Initial Step hastyClient :=
  (((Reachable.initial (initial_new _ _ _)).tail ⟨.connect _ _ _, trivial, rfl⟩).tail
    ⟨.receive _ _, show _ ≤ maxPacketSize by decide +kernel, rfl⟩).tail
      ⟨.receive _ _, show _ ≤ maxPacketSize by decide +kernel, rfl⟩

/-- The data is queued before the `CONNECT`. -/
theorem not_always_inOrder : ¬ ∀ (m : NetManager) (r : PeerRef), Reachable Initial Step m →
    InOrder m r ∧ ∀ m', Step m m' → r < m.peerCount →
      Moves (m.peerAt r).connectionState (m'.peerAt r).connectionState := by
  intro h
  have horder := (h hastyClient 0 hastyClient_reachable).1
  have hevents : hastyClient.events.map (fun e => (e.peer, e.type)) =
      [(some 0, .receive), (some 0, .connect)] := by decide +kernel
  rw [InOrder] at horder
  generalize hastyClient.events = events at horder hevents
  obtain ⟨e, rest, rfl, he, hrest⟩ := List.map_eq_cons_iff.mp hevents
  obtain ⟨e', rest', rfl, he', -⟩ := List.map_eq_cons_iff.mp hrest
  have hprecedes := List.rel_of_pairwise_cons horder List.mem_cons_self
    (Prod.mk.inj he).1 (Prod.mk.inj he').1
  exact (hprecedes.connect (Prod.mk.inj he').2).2 (.inl (Prod.mk.inj he).2)

end NetManager

end LiteNet.Manager
