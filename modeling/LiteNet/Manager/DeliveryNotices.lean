import LiteNet.Manager.DispatchChanges

/-! # Notices of delivery

The application learns from an event which of its messages was delivered, by the
user data that it sent with the message. No event carries any: `message_delivered`
is given the user data and does not put it into the event. The events of messages in
fragments are missing as well, as nothing enters a message into the map in which its
acknowledged fragments are counted.
-/

namespace LiteNet.Manager
open Library Wire Channels Relation

/-- No event that was queued carries user data. -/
def Plain (m : NetManager) : Prop := ∀ e ∈ m.events, e.userData = 0

section Plain

variable {m m' : NetManager}

theorem Plain.append (hm : Plain m) (es : List NetEvent) (hes : ∀ e ∈ es, e.userData = 0)
    (h : m'.events = m.events ++ es) : Plain m' := by
  intro e he
  rw [h] at he
  exact (List.mem_append.mp he).elim (hm e) (hes e)

theorem Change.plain {S : Scope} (h : Change S m m') (hm : Plain m) : Plain m' := by
  obtain ⟨es, hes, hfilled⟩ := h.queued
  exact hm.append es (fun e he => (hfilled e he).userData) hes

/-- No event of a manager that is reached carries user data. -/
theorem plain_of_reachable (h : Reachable NetManager.Initial NetManager.Step m) : Plain m := by
  have hboth : Consistent m ∧ Plain m := by
    refine h.invariant (P := fun m => Consistent m ∧ Plain m) (fun m hi => ⟨hi.consistent, ?_⟩)
      (fun m m' hm hs => ?_)
    · intro e he
      rw [hi.events] at he
      cases he
    · have hchanges := hs.changes hm.1
      exact ⟨hchanges.consistent hm.1,
        preserved_of_run (P := Plain) (fun _ _ hm hs => hs.plain hm) hm.2 hchanges⟩
  exact hboth.2

end Plain

namespace NetManager

variable {m : NetManager} {r : PeerRef}

def runActions (m : NetManager) (actions : List Action) : NetManager := actions.foldl act m

/-- Every action of a run is possible when its turn comes. -/
def Possible (m : NetManager) (actions : List Action) : Prop :=
  ∀ before a, before ++ [a] <+: actions → a.Enabled (m.runActions before)

theorem reachable_runActions (hm : Reachable Initial Step m) {actions : List Action}
    (h : m.Possible actions) : Reachable Initial Step (m.runActions actions) := by
  induction actions using List.reverseRecOn with
  | nil => exact hm
  | append_singleton actions a ih =>
    obtain ⟨hactions, ha⟩ := (forall_prefix_concat actions a).mp h
    rw [runActions, List.foldl_concat]
    exact (ih hactions).tail ⟨a, ha, rfl⟩

theorem plain_runActions (hm : Reachable Initial Step m) {a : Action} {actions : List Action}
    (h : m.Possible (a :: actions)) : Plain ((m.act a).runActions actions) :=
  plain_of_reachable (reachable_runActions hm h)

end NetManager

/-- What the application passes to `send_internal`. -/
structure Message where
  peer : PeerRef
  data : Bytes
  offset : ℕ
  size : ℕ
  channelNumber : UInt8
  deliveryMethod : DeliveryMethod
  userData : ℕ

namespace Message

def action (msg : Message) : NetManager.Action :=
  .send msg.peer msg.data msg.offset msg.size msg.channelNumber msg.deliveryMethod msg.userData

theorem action_enabled {msg : Message} {m : NetManager} (h : msg.peer < m.peerCount) :
    msg.action.Enabled m := h

/-- The channel that `send_internal` takes. -/
def channelId (msg : Message) : UInt8 :=
  .ofNat (msg.channelNumber.toNat * channelTypeCount + msg.deliveryMethod.code)

def isReliable (msg : Message) : Bool :=
  msg.deliveryMethod = .reliableOrdered || msg.deliveryMethod = .reliableUnordered

/-- Packets of the message wait in its channel for an acknowledgement. They are known by their user
data. -/
def outstanding (msg : Message) (m : NetManager) : Bool :=
  match (m.peerAt msg.peer).channels msg.channelId with
  | some (.reliable ch) =>
    ch.base.outgoingQueue.any (fun packet => packet.userData = msg.userData) ||
      (List.finRange windowSize).any fun i =>
        (ch.pendingPackets i).packet.any fun packet => packet.userData = msg.userData
  | _ => false

/-- The events that tell the application of the delivery of the message. -/
def notices (msg : Message) (m : NetManager) : List NetEvent :=
  m.events.filter fun e => e.type = .messageDelivered ∧ e.peer = some msg.peer ∧
    e.userData = msg.userData

/-- In the run `actions` from `m` one notice is queued for the message, by the action that
acknowledges the last of its packets. -/
def NotifiedOnce (msg : Message) (m : NetManager) (actions : List NetManager.Action) : Prop :=
  ∃ before a after, actions = before ++ a :: after ∧
    msg.outstanding (m.runActions before) = true ∧
    msg.outstanding (m.runActions (before ++ [a])) = false ∧
    (msg.notices (m.runActions before)).length = (msg.notices m).length ∧
    (msg.notices (m.runActions (before ++ [a]))).length = (msg.notices m).length + 1 ∧
    (msg.notices (m.runActions actions)).length = (msg.notices m).length + 1

theorem notices_eq_nil {msg : Message} (hdata : msg.userData ≠ 0) {m : NetManager}
    (hm : Plain m) : msg.notices m = [] := by
  refine List.filter_eq_nil_iff.mpr (fun e he hnotice => hdata ?_)
  have hnotice : e.type = .messageDelivered ∧ e.peer = some msg.peer ∧
      e.userData = msg.userData := by simpa using hnotice
  rw [← hnotice.2.2, hm e he]

theorem not_notifiedOnce_of_plain {msg : Message} (hdata : msg.userData ≠ 0) {m : NetManager}
    {actions : List NetManager.Action} (hm : Plain (m.runActions actions)) :
    ¬ msg.NotifiedOnce m actions := by
  rintro ⟨before, a, after, -, -, -, -, -, hone⟩
  rw [notices_eq_nil hdata hm] at hone
  cases hone

variable {m : NetManager}

/-- No message with user data is ever told to be delivered, however its packets are acknowledged. -/
theorem not_notifiedOnce (hm : Reachable NetManager.Initial NetManager.Step m) (msg : Message)
    (hdata : msg.userData ≠ 0) (actions : List NetManager.Action)
    (hactions : m.Possible (msg.action :: actions)) :
    ¬ msg.NotifiedOnce (m.act msg.action) actions :=
  not_notifiedOnce_of_plain hdata (NetManager.plain_runActions hm hactions)

end Message

/-- A message of one byte with the user data 7. -/
def oneByte : Message := ⟨0, [1], 0, 1, 0, .reliableOrdered, 7⟩

/-- The message is sent, and its first packet is acknowledged. -/
def acknowledging : List NetManager.Action :=
  [.updateLogic 1,
    .receive (setAckBit (NetReliableChannel.new true 2).outgoingAcks 0).wire ⟨2, 1, 2, 0⟩]

theorem acknowledging_possible :
    NetManager.connectedClient.Possible (oneByte.action :: acknowledging) := by
  refine (forall_prefix_concat [oneByte.action, .updateLogic 1] (.receive _ _)).mpr
    ⟨(forall_prefix_concat [oneByte.action] (.updateLogic 1)).mpr
      ⟨(forall_prefix_concat [] oneByte.action).mpr ⟨by simp, ?_⟩, ?_⟩, ?_⟩
  · apply Message.action_enabled
    decide +kernel
  · exact le_rfl
  · change _ ≤ maxPacketSize
    decide +kernel

theorem not_notifiedOnce_oneByte :
    ¬ oneByte.NotifiedOnce (NetManager.connectedClient.act oneByte.action) acknowledging :=
  Message.not_notifiedOnce NetManager.connectedClient_reachable oneByte (by decide) acknowledging
    acknowledging_possible

/-- A message that no other has the user data of is acknowledged, and the application is not told. -/
theorem oneByte_unnoticed :
    ¬ ∀ (m : NetManager) (msg : Message) (actions : List NetManager.Action),
      Reachable NetManager.Initial NetManager.Step m → msg.isReliable = true → msg.userData ≠ 0 →
      m.Possible (msg.action :: actions) → msg.outstanding m = false →
      msg.outstanding (m.act msg.action) = true →
      msg.outstanding ((m.act msg.action).runActions actions) = false →
      msg.NotifiedOnce (m.act msg.action) actions := by
  intro h
  refine Message.not_notifiedOnce_of_plain (by decide)
    (NetManager.plain_runActions NetManager.connectedClient_reachable acknowledging_possible)
    (h NetManager.connectedClient oneByte acknowledging NetManager.connectedClient_reachable
      (by decide) (by decide) acknowledging_possible ?_ ?_ ?_)
  · decide +kernel
  · decide +kernel
  · decide +kernel

end LiteNet.Manager
