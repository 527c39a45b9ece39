import LiteNet.Library.DoubleBuffer
import LiteNet.Manager.Lifecycle

/-! # What the listener is told

`poll_events` swaps the two event queues under their mutex, hands the events of the one
to the listener and recycles each when its call returns. Until then, and during the
calls, the other threads and the listener itself go on with the manager, and what they
queue waits in the other queue for the next poll.
-/

namespace LiteNet.Manager
open Library Wire Relation

inductive UnconnectedMessageType where
  | basic
  | broadcast
  deriving DecidableEq, Repr

structure DisconnectInfo where
  reason : DisconnectReason
  additionalData : Option NetDataReader
  socketErrorCode : ℕ

/-- The calls of `net_event_listener`. A peer or request that is `none` is a null pointer. -/
inductive ListenerCall where
  | onPeerConnected (peer : Option PeerRef)
  | onPeerDisconnected (peer : Option PeerRef) (disconnectInfo : DisconnectInfo)
  | onNetworkError (endpoint : NetAddress) (socketErrorCode : ℕ) (message : String)
  | onNetworkReceive (peer : Option PeerRef) (reader : NetDataReader) (channelNumber : UInt8)
      (deliveryMethod : DeliveryMethod)
  | onNetworkReceiveUnconnected (endpoint : NetAddress) (reader : NetDataReader)
      (messageType : UnconnectedMessageType)
  | onNetworkLatencyUpdate (peer : Option PeerRef) (latency : ℤ)
  | onConnectionRequest (request : Option RequestRef)
  | onMessageDelivered (peer : Option PeerRef) (userData : ℕ)

namespace ListenerCall

/-- The call is handed no null pointer. -/
def NonNull : ListenerCall → Prop
  | .onPeerConnected peer => peer.isSome = true
  | .onPeerDisconnected peer _ => peer.isSome = true
  | .onNetworkReceive peer _ _ _ => peer.isSome = true
  | .onNetworkLatencyUpdate peer _ => peer.isSome = true
  | .onConnectionRequest request => request.isSome = true
  | .onMessageDelivered peer _ => peer.isSome = true
  | _ => True

def Connects (r : PeerRef) (call : ListenerCall) : Prop := call = .onPeerConnected (some r)

def Disconnects (r : PeerRef) (call : ListenerCall) : Prop :=
  ∃ info, call = .onPeerDisconnected (some r) info

def Reports (r : PeerRef) (call : ListenerCall) : Prop :=
  (∃ reader channelNumber deliveryMethod,
      call = .onNetworkReceive (some r) reader channelNumber deliveryMethod) ∨
    ∃ latency, call = .onNetworkLatencyUpdate (some r) latency

/-- Two calls in an order that the session of `r` allows: it is connected before anything is
reported of it, and after it was disconnected it is heard of no more. -/
structure Precedes (r : PeerRef) (call call' : ListenerCall) : Prop where
  connect : call'.Connects r → ¬ call.Connects r ∧ ¬ call.Reports r ∧ ¬ call.Disconnects r
  disconnect : call'.Disconnects r → ¬ call.Disconnects r
  reports : call'.Reports r → ¬ call.Disconnects r

end ListenerCall

/-- The call that `process_event` makes; none where it would read an empty optional. -/
def NetEvent.processEvent (event : NetEvent) : Option ListenerCall :=
  match event.type with
  | .connect => some (.onPeerConnected event.peer)
  | .disconnect =>
    some (.onPeerDisconnected event.peer {
      reason := event.disconnectReason
      additionalData := event.reader
      socketErrorCode := event.socketErrorCode })
  | .receive =>
    event.reader.map fun reader =>
      .onNetworkReceive event.peer reader event.channelNumber event.deliveryMethod
  | .receiveUnconnected =>
    event.reader.map fun reader => .onNetworkReceiveUnconnected event.remoteEndpoint reader .basic
  | .broadcast =>
    event.reader.map fun reader =>
      .onNetworkReceiveUnconnected event.remoteEndpoint reader .broadcast
  | .networkError =>
    event.errorMessage.map fun message =>
      .onNetworkError event.remoteEndpoint event.socketErrorCode message
  | .connectionLatencyUpdated => some (.onNetworkLatencyUpdate event.peer event.latency)
  | .connectionRequest => some (.onConnectionRequest event.connectionRequest)
  | .messageDelivered => some (.onMessageDelivered event.peer event.userData)

/-- A complete event makes a call that is handed no null pointer. -/
theorem NetEvent.Complete.processEvent {event : NetEvent} (h : event.Complete) :
    ∃ call, event.processEvent = some call ∧ call.NonNull := by
  rw [Complete] at h
  rw [NetEvent.processEvent]
  cases ht : event.type <;> rw [ht] at h
  case receive =>
    obtain ⟨hpeer, hreader⟩ := h
    obtain ⟨reader, hr⟩ := Option.isSome_iff_exists.mp hreader
    rw [hr]
    exact ⟨_, rfl, hpeer⟩
  case receiveUnconnected | broadcast =>
    obtain ⟨reader, hr⟩ := Option.isSome_iff_exists.mp h
    rw [hr]
    exact ⟨_, rfl, trivial⟩
  case networkError =>
    obtain ⟨message, hmessage⟩ := Option.isSome_iff_exists.mp h
    rw [hmessage]
    exact ⟨_, rfl, trivial⟩
  all_goals exact ⟨_, rfl, h⟩

/-- Where the thread that polls stands. -/
inductive PollPhase where
  | idle
  | polling
  /-- The listener is called for the current event. -/
  | calling
  | aborted
  deriving DecidableEq

/-- A manager with its two event queues and the thread that polls, in a build with assertions or
without. `calls` keeps what the listener was told, `processed` the events that are done with. -/
structure Polling where
  manager : NetManager
  autoRecycle : Bool
  assertions : Bool
  queues : DoubleBuffer NetEvent
  phase : PollPhase
  calls : List ListenerCall
  processed : List NetEvent
  recycled : List NetEvent

/-- What another thread or the listener does, a call of `poll_events`, and its next step. -/
inductive PollAction where
  | other (a : NetManager.Action)
  | poll
  | advance

def PollAction.isAdvance : PollAction → Bool
  | .advance => true
  | _ => false

namespace Polling

/-- The next step of the loop of `poll_events`. A listener is given no event, so that only
`auto_recycle` recycles one, and the `assert` at the end of `process_event` fails without it where
it is compiled in. -/
def advance (p : Polling) : Polling :=
  match p.phase, p.queues.current with
  | .polling, none => { p with queues := p.queues.clear, phase := .idle }
  | .polling, some event =>
    match event.processEvent with
    | none => { p with phase := .aborted }
    | some call => { p with calls := p.calls ++ [call], phase := .calling }
  | .calling, some event =>
    if p.autoRecycle then
      { p with
        manager := p.manager.recycleEvent event
        queues := p.queues.advance
        phase := .polling
        processed := p.processed ++ [event]
        recycled := p.recycled ++ [event] }
    else if p.assertions then { p with phase := .aborted }
    else
      { p with
        queues := p.queues.advance
        phase := .polling
        processed := p.processed ++ [event] }
  | _, _ => p

/-- What an action queues goes to the queue that is not being consumed. -/
def act (p : Polling) : PollAction → Polling
  | .other a =>
    let m := p.manager.act a
    { p with manager := m, queues := p.queues.put (m.events.drop p.manager.events.length) }
  | .poll => { p with queues := p.queues.swap, phase := .polling }
  | .advance => p.advance

/-- One thread polls, the listener does not. What the others do is subject to `others`. -/
def Enabled (others : NetManager → NetManager.Action → Prop) (p : Polling) : PollAction → Prop
  | .other a => p.phase ≠ .aborted ∧ a.Enabled p.manager ∧ (∀ event, a ≠ .recycleEvent event) ∧
      others p.manager a
  | .poll => p.phase = .idle
  | .advance => p.phase = .polling ∨ p.phase = .calling

structure Start (p : Polling) : Prop where
  manager : p.manager.Initial
  queues : p.queues = .empty
  phase : p.phase = .idle
  calls : p.calls = []
  processed : p.processed = []
  recycled : p.recycled = []

def Step (others : NetManager → NetManager.Action → Prop) (p p' : Polling) : Prop :=
  ∃ a, p.Enabled others a ∧ p.act a = p'

/-- The events that the listener was called for: the one of the call that runs is not done with. -/
def heard (p : Polling) : List NetEvent :=
  match p.phase with
  | .idle | .polling => p.processed
  | .calling | .aborted => p.processed ++ p.queues.current.toList

section Heard

variable {p : Polling}

theorem heard_between (h : p.phase = .idle ∨ p.phase = .polling) : p.heard = p.processed := by
  rw [heard]
  rcases h with h | h <;> rw [h]

theorem heard_called {event : NetEvent} (h : p.phase = .calling ∨ p.phase = .aborted)
    (current : p.queues.current = some event) : p.heard = p.processed ++ [event] := by
  rw [heard]
  rcases h with h | h <;> rw [h, current] <;> rfl

end Heard

/-- What a manager does that is polled. -/
def ManagerStep (others : NetManager → NetManager.Action → Prop) (m m' : NetManager) : Prop :=
  ∃ a : NetManager.Action, a.Enabled m ∧ ((∀ event, a ≠ .recycleEvent event) → others m a) ∧
    m.act a = m'

structure Invariant (others : NetManager → NetManager.Action → Prop) (p : Polling) : Prop where
  reached : Reachable NetManager.Initial (ManagerStep others) p.manager
  filled : ∀ e ∈ p.manager.events, e.Filled
  holds : p.queues.Holds p.manager.events p.processed
  calls : p.calls = p.heard.filterMap NetEvent.processEvent
  idle : p.phase = .idle → p.queues.consumed = []
  called : p.phase = .calling ∨ p.phase = .aborted → ∃ e, p.queues.current = some e
  aborted : p.phase = .aborted → p.autoRecycle = false ∧ p.assertions = true
  recycled : p.autoRecycle = true → p.recycled = p.processed

variable {others : NetManager → NetManager.Action → Prop} {p p' : Polling}

theorem ManagerStep.step {m m' : NetManager} (h : ManagerStep others m m') :
    NetManager.Step m m' :=
  h.imp (fun _ ⟨enabled, _, act⟩ => ⟨enabled, act⟩)

theorem Invariant.consistent (h : p.Invariant others) : Consistent p.manager :=
  NetManager.consistent_of_reachable (h.reached.mono (fun _ _ => ManagerStep.step))

theorem Start.invariant (h : p.Start) : p.Invariant others where
  reached := .initial h.manager
  filled := by
    rw [h.manager.events]
    exact fun e he => absurd he List.not_mem_nil
  holds := by
    rw [h.queues, h.processed, h.manager.events]
    exact DoubleBuffer.holds_empty
  calls := by
    rw [heard_between (.inl h.phase), h.calls, h.processed]
    rfl
  idle := fun _ => by rw [h.queues]; rfl
  called := by
    rw [h.phase]
    rintro (he | he) <;> cases he
  aborted := by
    rw [h.phase]
    exact fun he => by cases he
  recycled := fun _ => h.recycled.trans h.processed.symm

/-- What the next step of a poll can be. -/
inductive Advances (p : Polling) : Polling → Prop
  | returns (phase : p.phase = .polling) (current : p.queues.current = none) :
      Advances p { p with queues := p.queues.clear, phase := .idle }
  | calls (event call) (phase : p.phase = .polling) (current : p.queues.current = some event)
      (makes : event.processEvent = some call) :
      Advances p { p with calls := p.calls ++ [call], phase := .calling }
  | recycles (event) (phase : p.phase = .calling) (current : p.queues.current = some event)
      (auto : p.autoRecycle = true) :
      Advances p { p with
        manager := p.manager.recycleEvent event
        queues := p.queues.advance
        phase := .polling
        processed := p.processed ++ [event]
        recycled := p.recycled ++ [event] }
  | aborts (phase : p.phase = .calling) (auto : p.autoRecycle = false)
      (assertions : p.assertions = true) : Advances p { p with phase := .aborted }
  | passes (event) (phase : p.phase = .calling) (current : p.queues.current = some event)
      (auto : p.autoRecycle = false) :
      Advances p { p with
        queues := p.queues.advance
        phase := .polling
        processed := p.processed ++ [event] }

theorem Invariant.advances (h : p.Invariant others)
    (enabled : p.phase = .polling ∨ p.phase = .calling) : Advances p p.advance := by
  rw [advance]
  rcases enabled with hphase | hphase
  · cases hc : p.queues.current with
    | none =>
      simp only [hphase]
      exact .returns hphase hc
    | some event =>
      obtain ⟨call, hcall, -⟩ :=
        (h.filled event (DoubleBuffer.mem_of_current hc h.holds)).complete.processEvent
      simp only [hphase, hcall]
      exact .calls event call hphase hc hcall
  · obtain ⟨event, hc⟩ := h.called (.inl hphase)
    simp only [hphase, hc]
    split
    · next hauto => exact .recycles event hphase hc hauto
    · next hauto =>
      have hoff : p.autoRecycle = false := Bool.not_eq_true _ ▸ hauto
      split
      · next hassert => exact .aborts hphase hoff hassert
      · exact .passes event hphase hc hoff

theorem Invariant.advance (h : p.Invariant others)
    (enabled : p.phase = .polling ∨ p.phase = .calling) : p.advance.Invariant others := by
  have hadvances := h.advances enabled
  generalize p.advance = p' at hadvances ⊢
  cases hadvances with
  | returns phase current =>
    exact { h with
      holds := h.holds.clear current
      calls := by
        rw [heard_between (.inl rfl)]
        exact heard_between (.inr phase) ▸ h.calls
      idle := fun _ => rfl
      called := fun hp => by rcases hp with hp | hp <;> cases hp
      aborted := fun hp => by cases hp }
  | calls event call phase current makes =>
    have hheard : ({ p with calls := p.calls ++ [call], phase := .calling } : Polling).heard =
        p.processed ++ [event] := heard_called (.inl rfl) current
    exact { h with
      calls := by
        rw [hheard, List.filterMap_append, List.filterMap_cons_some makes]
        change p.calls ++ [call] = _
        rw [h.calls, heard_between (.inr phase)]
        rfl
      idle := fun hp => by cases hp
      called := fun _ => ⟨event, current⟩
      aborted := fun hp => by cases hp }
  | recycles event phase current auto =>
    have hevents : (p.manager.recycleEvent event).events = p.manager.events :=
      (NetManager.recycleEvent_aside p.manager event).events
    have hmem : event ∈ p.manager.events := DoubleBuffer.mem_of_current current h.holds
    exact { h with
      reached := h.reached.tail ⟨.recycleEvent event, hmem, fun hne => absurd rfl (hne event), rfl⟩
      filled := by
        rw [hevents]
        exact h.filled
      holds := by
        rw [hevents]
        exact h.holds.advance current
      calls := by
        rw [heard_between (.inr rfl)]
        exact heard_called (.inl phase) current ▸ h.calls
      idle := fun hp => by cases hp
      called := fun hp => by rcases hp with hp | hp <;> cases hp
      aborted := fun hp => by cases hp
      recycled := fun _ => congrArg (· ++ [event]) (h.recycled auto) }
  | passes event phase current auto =>
    exact { h with
      holds := h.holds.advance current
      calls := by
        rw [heard_between (.inr rfl)]
        exact heard_called (.inl phase) current ▸ h.calls
      idle := fun hp => by cases hp
      called := fun hp => by rcases hp with hp | hp <;> cases hp
      aborted := fun hp => by cases hp
      recycled := fun hauto => absurd (auto.symm.trans hauto) (by decide) }
  | aborts phase auto assertions =>
    obtain ⟨event, current⟩ := h.called (.inl phase)
    have hheard : ({ p with phase := .aborted } : Polling).heard = p.processed ++ [event] :=
      heard_called (.inr rfl) current
    exact { h with
      calls := by
        rw [hheard]
        exact heard_called (.inl phase) current ▸ h.calls
      idle := fun hp => by cases hp
      called := fun _ => ⟨event, current⟩
      aborted := fun _ => ⟨auto, assertions⟩ }

theorem Invariant.other (h : p.Invariant others) {a : NetManager.Action}
    (enabled : p.Enabled others (.other a)) : (p.act (.other a)).Invariant others := by
  obtain ⟨-, ha, -, hothers⟩ := enabled
  have hchanges := NetManager.Step.changes ⟨a, ha, rfl⟩ h.consistent
  obtain ⟨es, hes, hfilled⟩ := Changes.queued hchanges
  exact { h with
    reached := h.reached.tail ⟨a, ha, fun _ => hothers, rfl⟩
    filled := fun e he => by
      change e ∈ (p.manager.act a).events at he
      rw [hes] at he
      exact (List.mem_append.mp he).elim (h.filled e) (hfilled e)
    holds := by
      change (p.queues.put ((p.manager.act a).events.drop p.manager.events.length)).Holds
        (p.manager.act a).events p.processed
      rw [hes, List.drop_left]
      exact h.holds.put es }

theorem Invariant.poll (h : p.Invariant others) (idle : p.phase = .idle) :
    (p.act .poll).Invariant others :=
  { h with
    holds := (h.holds.swap (h.idle idle)).1
    calls := by
      rw [heard_between (.inr rfl)]
      exact heard_between (.inl idle) ▸ h.calls
    idle := fun hp => by cases hp
    called := fun hp => by rcases hp with hp | hp <;> cases hp
    aborted := fun hp => by cases hp }

theorem Invariant.act (h : p.Invariant others) {a : PollAction} (enabled : p.Enabled others a) :
    (p.act a).Invariant others := by
  cases a with
  | other a => exact h.other enabled
  | poll => exact h.poll enabled
  | advance => exact h.advance enabled

theorem invariant_of_run (h : Reachable Start (Step others) p) : p.Invariant others :=
  h.invariant (P := fun p => p.Invariant others) (fun _ hi => hi.invariant)
    (fun _ _ hp ⟨_, enabled, hact⟩ => hact ▸ hp.act enabled)

/-- Data keeps until the accept. -/
def Timely (m : NetManager) (a : NetManager.Action) : Prop :=
  ∀ bytes addr, a = .receive bytes addr → ¬ NetManager.Untimely m bytes addr

/-- The event that the client is connected waits to be polled. -/
def waitingClient : Polling :=
  let p : Polling := {
    manager := NetManager.new (.const 5) (.const 0) (.const .ok)
    autoRecycle := true
    assertions := true
    queues := .empty
    phase := .idle
    calls := []
    processed := []
    recycled := [] }
  (p.act (.other (.connect ⟨2, 1, 2, 0⟩ [] 0))).act
    (.other (.receive (NetConnectAcceptPacket.make 5 0 0).wire ⟨2, 1, 2, 0⟩))

/-- A packet arrived and the client disconnected, and the listener is told of the end. -/
def tellingClient : Polling :=
  let p := (waitingClient.act (.other (.receive [0, 7] ⟨2, 1, 2, 0⟩))).act
    (.other (.disconnectAll none 0 0))
  (((((p.act .poll).act .advance).act .advance).act .advance).act .advance).act .advance

theorem waitingClient_reachable : Reachable Start (Step Timely) waitingClient := by
  refine ((Reachable.initial ⟨NetManager.initial_new _ _ _, rfl, rfl, rfl, rfl, rfl⟩).tail
    ⟨.other (.connect _ _ _), ⟨?_, trivial, ?_, ?_⟩, rfl⟩).tail
    ⟨.other (.receive _ _), ⟨?_, show _ ≤ maxPacketSize by decide +kernel, ?_, ?_⟩, rfl⟩
  · exact fun h => by cases h
  · exact fun _ h => by cases h
  · intro bytes addr h untimely
    obtain ⟨rfl, rfl⟩ := NetManager.Action.receive.inj h
    exact absurd untimely.carries (by unfold CarriesData; decide +kernel)
  · exact fun h => by cases h
  · exact fun _ h => by cases h
  · exact fun _ _ h => by cases h

theorem tellingClient_reachable : Reachable Start (Step Timely) tellingClient := by
  have hact : ∀ {p : Polling} {a : PollAction}, Reachable Start (Step Timely) p →
      p.Enabled Timely a → Reachable Start (Step Timely) (p.act a) :=
    fun hp ha => hp.tail ⟨_, ha, rfl⟩
  rw [tellingClient]
  refine hact (hact (hact (hact (hact (hact (hact (hact waitingClient_reachable
    ⟨?_, show _ ≤ maxPacketSize by decide +kernel, ?_, ?_⟩) ⟨?_, trivial, ?_, ?_⟩) ?_)
    (.inl ?_)) (.inr ?_)) (.inl ?_)) (.inr ?_)) (.inl ?_)
  · exact fun h => by cases h
  · exact fun _ h => by cases h
  · intro bytes addr h untimely
    obtain ⟨rfl, rfl⟩ := NetManager.Action.receive.inj h
    obtain ⟨-, -, r, hfound, houtgoing, -⟩ := untimely
    have hzero : waitingClient.manager.tryGetPeer ⟨2, 1, 2, 0⟩ = some 0 := by decide +kernel
    cases hfound.symm.trans hzero
    exact absurd houtgoing (by decide +kernel)
  · exact fun h => by cases h
  · exact fun _ h => by cases h
  · exact fun _ _ h => by cases h
  · change PollPhase.idle = _
    rfl
  all_goals decide +kernel

theorem Invariant.heard_isPrefix (h : p.Invariant others) : p.heard <+: p.manager.events := by
  have hbetween (hphase : p.phase = .idle ∨ p.phase = .polling) : p.heard <+: p.manager.events :=
    heard_between hphase ▸ h.holds.taken_isPrefix
  have hcalled (hphase : p.phase = .calling ∨ p.phase = .aborted) :
      p.heard <+: p.manager.events := by
    obtain ⟨event, current⟩ := h.called hphase
    exact heard_called hphase current ▸ (h.holds.advance current).taken_isPrefix
  cases hphase : p.phase with
  | idle => exact hbetween (.inl hphase)
  | polling => exact hbetween (.inr hphase)
  | calling => exact hcalled (.inl hphase)
  | aborted => exact hcalled (.inr hphase)

/-- The listener is told of the events in the order they were queued, of each once and with
everything the call needs, and nothing but the switched off `auto_recycle` aborts a poll, where
assertions are compiled in. -/
theorem told_of_run (h : Reachable Start (Step others) p) :
    p.heard <+: p.manager.events ∧ p.calls = p.heard.filterMap NetEvent.processEvent ∧
      (∀ e ∈ p.heard, ∃ call, e.processEvent = some call ∧ call.NonNull) ∧
      (p.phase = .aborted → p.autoRecycle = false ∧ p.assertions = true) := by
  have hp := invariant_of_run h
  have hheard := hp.heard_isPrefix
  exact ⟨hheard, hp.calls, fun e he => (hp.filled e (hheard.subset he)).complete.processEvent,
    hp.aborted⟩

theorem told_of_run_tellingClient :
    tellingClient.heard <+: tellingClient.manager.events ∧
      tellingClient.calls = tellingClient.heard.filterMap NetEvent.processEvent ∧
      (∀ e ∈ tellingClient.heard, ∃ call, e.processEvent = some call ∧ call.NonNull) ∧
      (tellingClient.phase = .aborted →
        tellingClient.autoRecycle = false ∧ tellingClient.assertions = true) :=
  told_of_run tellingClient_reachable

/-- What can happen until a poll returns. -/
def EnabledInPoll (others : NetManager → NetManager.Action → Prop) (p : Polling)
    (a : PollAction) : Prop :=
  p.Enabled others a ∧ a ≠ .poll

/-- The steps that a poll has left before it finds nothing to hand over: a call and a return for
each event. -/
def stepsLeft (p : Polling) : ℕ :=
  match p.phase with
  | .calling => 2 * p.queues.left.length - 1
  | _ => 2 * p.queues.left.length

theorem stepsLeft_polling (h : p.phase = .polling) : p.stepsLeft = 2 * p.queues.left.length := by
  rw [stepsLeft, h]

theorem stepsLeft_calling (h : p.phase = .calling) :
    p.stepsLeft = 2 * p.queues.left.length - 1 := by
  rw [stepsLeft, h]

/-- A poll that has still to hand over what is missing of `es`. -/
structure HandsOver (others : NetManager → NetManager.Action → Prop) (es : List NetEvent)
    (p : Polling) : Prop where
  invariant : p.Invariant others
  auto : p.autoRecycle = true
  phase : p.phase = .polling ∨ p.phase = .calling
  covers : es <+: p.processed ++ p.queues.left

structure HandedOver (others : NetManager → NetManager.Action → Prop) (es : List NetEvent)
    (p : Polling) : Prop where
  invariant : p.Invariant others
  auto : p.autoRecycle = true
  phase : p.phase = .idle
  covers : es <+: p.processed

theorem HandsOver.advance {es : List NetEvent} (h : HandsOver others es p) :
    HandedOver others es p.advance ∨
      HandsOver others es p.advance ∧ p.advance.stepsLeft + 1 ≤ p.stepsLeft := by
  have hnext := h.invariant.advance h.phase
  have hadvances := h.invariant.advances h.phase
  generalize p.advance = p' at hnext hadvances ⊢
  have hcovers := h.covers
  cases hadvances with
  | returns phase current =>
    rw [DoubleBuffer.left_of_none current, List.append_nil] at hcovers
    exact .inl ⟨hnext, h.auto, rfl, hcovers⟩
  | calls event call phase current makes =>
    refine .inr ⟨⟨hnext, h.auto, .inr rfl, hcovers⟩, ?_⟩
    have hleft := congrArg List.length (DoubleBuffer.left_of_current current)
    rw [List.length_cons] at hleft
    rw [stepsLeft_calling rfl, stepsLeft_polling phase]
    change 2 * p.queues.left.length - 1 + 1 ≤ _
    omega
  | recycles event phase current auto =>
    have hleft := DoubleBuffer.left_of_current current
    refine .inr ⟨⟨hnext, h.auto, .inl rfl, ?_⟩, ?_⟩
    · rw [hleft, List.append_cons] at hcovers
      exact hcovers
    · rw [stepsLeft_polling rfl, stepsLeft_calling phase, hleft, List.length_cons]
      change 2 * p.queues.advance.left.length + 1 ≤ _
      omega
  | passes event phase current auto => exact absurd (h.auto.symm.trans auto) (by decide)
  | aborts phase auto => exact absurd (h.auto.symm.trans auto) (by decide)

/-- However the other threads and the listener go on, a poll returns after two steps for each event
that was waiting and one more, and then the listener was told of every event that was queued before
the poll, and each was recycled. -/
theorem poll_returns (h : Reachable Start (Step others) p) (idle : p.phase = .idle)
    (auto : p.autoRecycle = true) {actions : List PollAction}
    (possible : ∀ before a, before ++ [a] <+: actions →
      EnabledInPoll others (before.foldl act (p.act .poll)) a)
    (enough : 2 * p.queues.produced.length < actions.countP PollAction.isAdvance) :
    (actions.foldl act (p.act .poll)).phase = .idle ∧
      p.manager.events <+: (actions.foldl act (p.act .poll)).recycled := by
  have hp := invariant_of_run h
  have hswap := hp.holds.swap (hp.idle idle)
  have hfirst : HandsOver others p.manager.events (p.act .poll) :=
    ⟨hp.poll idle, auto, .inl rfl, hswap.2 ▸ List.prefix_rfl⟩
  have hrun := spent_of_run (P := fun _ => HandsOver others p.manager.events)
    (Q := HandedOver others p.manager.events) stepsLeft PollAction.isAdvance 0 ?_ ?_ possible
    (.inr ⟨hfirst, enough⟩)
  · exact ⟨hrun.phase, hrun.invariant.recycled hrun.auto ▸ hrun.covers⟩
  · rintro - q a hq ⟨ha, hne⟩
    cases a with
    | other a =>
      exact .inr ⟨⟨hq.invariant.other ha, hq.auto, hq.phase, hq.covers⟩, le_rfl⟩
    | poll => exact absurd rfl hne
    | advance => exact hq.advance
  · rintro q a hq ⟨ha, hne⟩
    cases a with
    | other a => exact ⟨hq.invariant.other ha, hq.auto, hq.phase, hq.covers⟩
    | poll => exact absurd rfl hne
    | advance =>
      rcases ha with hphase | hphase <;> rw [hq.phase] at hphase <;> cases hphase

theorem poll_returns_waitingClient :
    ([PollAction.advance, .advance, .advance].foldl act
        (waitingClient.act .poll)).phase = .idle ∧
      waitingClient.manager.events <+:
        ([PollAction.advance, .advance, .advance].foldl act
          (waitingClient.act .poll)).recycled := by
  refine poll_returns waitingClient_reachable rfl rfl ?_ (by decide +kernel)
  refine (forall_prefix_concat [PollAction.advance, .advance] .advance).mpr
    ⟨(forall_prefix_concat [PollAction.advance] .advance).mpr
      ⟨(forall_prefix_concat [] PollAction.advance).mpr ⟨by simp, ?_⟩, ?_⟩, ?_⟩
  · exact ⟨.inl rfl, fun h => by cases h⟩
  · exact ⟨.inr (by decide +kernel), fun h => by cases h⟩
  · exact ⟨.inl (by decide +kernel), fun h => by cases h⟩

theorem ManagerStep.timely {m m' : NetManager} (h : ManagerStep Timely m m') :
    NetManager.TimelyStep m m' := by
  obtain ⟨a, ha, htimely, hact⟩ := h
  refine ⟨a, ha, fun bytes addr hreceive => htimely (fun event he => ?_) bytes addr hreceive, hact⟩
  rw [hreceive] at he
  cases he

/-- What a call says of a session, its event said. -/
theorem about_of_processEvent {event : NetEvent} {call : ListenerCall} {r : PeerRef}
    (h : event.processEvent = some call) :
    (call.Connects r → event.peer = some r ∧ event.type = .connect) ∧
      (call.Disconnects r → event.peer = some r ∧ event.type = .disconnect) ∧
      (call.Reports r → event.peer = some r ∧ event.Reports) := by
  rw [NetEvent.processEvent] at h
  rw [ListenerCall.Connects, ListenerCall.Disconnects, ListenerCall.Reports, NetEvent.Reports]
  cases ht : event.type <;> rw [ht] at h
  case connect | disconnect | connectionLatencyUpdated | connectionRequest | messageDelivered =>
    cases h
    simp
  all_goals
    obtain ⟨-, -, rfl⟩ := Option.map_eq_some_iff.mp h
    simp

/-- The event that connects is the call that does. -/
theorem connects_of_processEvent {event : NetEvent} {r : PeerRef} (peer : event.peer = some r)
    (type : event.type = .connect) :
    ∃ call : ListenerCall, event.processEvent = some call ∧ call.Connects r := by
  refine ⟨.onPeerConnected (some r), ?_, rfl⟩
  rw [NetEvent.processEvent, type, peer]

theorem precedes_of_processEvent {event event' : NetEvent} {call call' : ListenerCall}
    {r : PeerRef} (h : event.processEvent = some call) (h' : event'.processEvent = some call')
    (precedes : event.peer = some r → event'.peer = some r → event.Precedes event')
    (unended : event'.peer = some r → event'.type = .connect → event.peer = some r →
      event.type ≠ .disconnect) : call.Precedes r call' := by
  obtain ⟨hconnects, hdisconnects, hreports⟩ := about_of_processEvent (r := r) h
  obtain ⟨hconnects', hdisconnects', hreports'⟩ := about_of_processEvent (r := r) h'
  refine ⟨fun hc' => ⟨fun hc => ?_, fun hc => ?_, fun hc => ?_⟩, fun hc' hc => ?_,
    fun hc' hc => ?_⟩
  · have hp := precedes (hconnects hc).1 (hconnects' hc').1
    exact (hp.connect (hconnects' hc').2).1 (hconnects hc).2
  · have hp := precedes (hreports hc).1 (hconnects' hc').1
    exact (hp.connect (hconnects' hc').2).2 (hreports hc).2
  · exact unended (hconnects' hc').1 (hconnects' hc').2 (hdisconnects hc).1 (hdisconnects hc).2
  · have hp := precedes (hdisconnects hc).1 (hdisconnects' hc').1
    exact hp.disconnect (hdisconnects' hc').2 (hdisconnects hc).2
  · have hp := precedes (hdisconnects hc).1 (hreports' hc').1
    exact hp.reports (hreports' hc').2 (hdisconnects hc).2

/-- Where data keeps until the accept, the listener is told of every session in order: at most once
that it is connected, then what it reports, then at most once that it is disconnected. Nothing is
reported of a session that it was not told of. -/
theorem told_inOrder (h : Reachable Start (Step Timely) p) (r : PeerRef) :
    p.calls.Pairwise (ListenerCall.Precedes r) ∧
      ∀ before call, before ++ [call] <+: p.calls → call.Reports r →
        ∃ earlier ∈ before, earlier.Connects r := by
  have hp := invariant_of_run h
  have hheard := hp.heard_isPrefix
  have hfollows : NetManager.Follows p.manager r :=
    (NetManager.follows_of_reachable (hp.reached.mono (fun _ _ => ManagerStep.timely))).2 r
  have hintroduced : ∀ before e, before ++ [e] <+: p.heard → e.Introduced r before :=
    fun before e hb => hfollows.introduced before e (hb.trans hheard)
  rw [hp.calls]
  constructor
  · have hunended : p.heard.Pairwise fun e e' => e'.peer = some r → e'.type = .connect →
        e.peer = some r → e.type ≠ .disconnect :=
      pairwise_of_prefix (fun before e hb c hc peer type =>
        (hintroduced before e hb).connect peer type c hc)
    rw [List.pairwise_filterMap]
    refine ((hfollows.inOrder.sublist hheard.sublist).and hunended).imp
      (fun hevents call hcall call' hcall' => ?_)
    exact precedes_of_processEvent hcall hcall' hevents.1 hevents.2
  · intro before call hb hreports
    obtain ⟨events, event, hevent, hcall, rfl⟩ := prefix_filterMap_concat hb
    have habout := (about_of_processEvent hcall).2.2 hreports
    obtain ⟨first, hfirst, peer, type⟩ := (hintroduced events event hevent).reports habout.1 habout.2
    obtain ⟨earlier, hearlier, hconnects⟩ := connects_of_processEvent peer type
    exact ⟨earlier, List.mem_filterMap.mpr ⟨first, hfirst, hearlier⟩, hconnects⟩

theorem told_inOrder_tellingClient :
    tellingClient.calls.Pairwise (ListenerCall.Precedes 0) ∧
      ∀ before call, before ++ [call] <+: tellingClient.calls → call.Reports 0 →
        ∃ earlier ∈ before, earlier.Connects 0 :=
  told_inOrder tellingClient_reachable 0

end Polling

end LiteNet.Manager
