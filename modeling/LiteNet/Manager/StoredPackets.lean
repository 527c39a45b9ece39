import LiteNet.Manager.DispatchChanges

/-! # The stored packets of a handshake

A peer keeps the packet that began its session: the request if this side connected,
the accept if the other side did. `process_connect_request` sends the accept of every
connected peer that is asked again.
-/

namespace LiteNet.Manager
open Library Wire Relation

/-- The pointer that `process_connect_request` passes to `send_raw`. -/
def NetPeer.acceptSent (p : NetPeer) (request : NetConnectRequestPacket) :
    Option (Option NetPacket) :=
  if p.connectionState = .connected ∧ request.connectionTime = p.connectTime
    then some p.connectAcceptPacket else none

namespace NetManager

/-- The pointer that `update` passes to `send_raw` for a peer that waits for an accept. -/
def requestSent (m : NetManager) (r : PeerRef) (deltaTime : ℤ) : Option (Option NetPacket) :=
  let p := m.peerAt r
  if p.connectionState = .outgoing ∧ m.reconnectDelay < p.connectTimer + deltaTime ∧
      p.connectAttempts + 1 ≤ m.maxConnectAttempts
    then some p.connectRequestPacket else none

/-- What is sent in answer to a request is exactly that packet. -/
theorem peerProcessConnectRequest_sent (m : NetManager) (r : PeerRef)
    (request : NetConnectRequestPacket) : (m.peerProcessConnectRequest r request).1 =
      match (m.peerAt r).acceptSent request with
      | some (some packet) => (m.sendRaw packet.wire (m.peerAt r).endpoint).1
      | _ => m := by
  have hsilent : (m.peerAt r).connectionState ≠ .connected →
      (m.peerAt r).acceptSent request = none := by
    intro hs
    rw [NetPeer.acceptSent, if_neg (fun h => hs h.1)]
  rw [peerProcessConnectRequest]
  cases hs : (m.peerAt r).connectionState with
  | connected =>
    rw [NetPeer.acceptSent]
    by_cases ht : request.connectionTime = (m.peerAt r).connectTime
    · simp only [if_pos ht, if_pos (And.intro hs ht)]
      cases (m.peerAt r).connectAcceptPacket <;> rfl
    · simp only [if_neg ht, if_neg (fun h : _ ∧ _ => ht h.2)]
      split <;> rfl
  | outgoing =>
    rw [hsilent (by rw [hs]; decide)]
    dsimp only
    repeat' split
    all_goals rfl
  | disconnected =>
    rw [hsilent (by rw [hs]; decide)]
    dsimp only
    split <;> rfl
  | shutdownRequested =>
    rw [hsilent (by rw [hs]; decide)]
    dsimp only
    split <;> rfl

/-- What an update sends while it waits is exactly that packet. -/
theorem update_sent (m : NetManager) (r : PeerRef) (deltaTime : ℤ) {packet : Option NetPacket}
    (h : m.requestSent r deltaTime = some packet) : ∃ p : NetPeer,
      p.endpoint = (m.peerAt r).endpoint ∧ m.update r deltaTime =
        match packet with
        | some packet => ((m.setPeer r p).sendRaw packet.wire p.endpoint).1
        | none => m.setPeer r p := by
  rw [requestSent] at h
  split at h
  · next hc =>
    obtain ⟨hs, hdelay, hattempts⟩ := hc
    have hp : (m.peerAt r).connectRequestPacket = packet := Option.some.inj h
    refine ⟨{ m.peerAt r with
      timeSinceLastPacket := wrapInt32 ((m.peerAt r).timeSinceLastPacket + deltaTime)
      connectTimer := 0
      connectAttempts := (m.peerAt r).connectAttempts + 1 }, rfl, ?_⟩
    rw [update]
    simp only [hs]
    rw [updateOutgoing]
    have hset : ∀ p p' : NetPeer, (m.setPeer r p).setPeer r p' = m.setPeer r p' := by
      intro p p'
      rw [setPeer, setPeer, setPeer, Function.update_idem]
    have hsettings : ∀ p : NetPeer, (m.setPeer r p).reconnectDelay = m.reconnectDelay ∧
        (m.setPeer r p).maxConnectAttempts = m.maxConnectAttempts := fun _ => ⟨rfl, rfl⟩
    simp only [setPeer_self, hset, (hsettings _).1, (hsettings _).2, if_pos hdelay,
      if_neg (not_lt.mpr hattempts), hp]
    cases packet <;> rfl
  · cases h

/-- Both pointers are there in every state that is reached, unless a peer that was connected by its own
request is asked for a connection of its own time. -/
theorem stored_iff {m : NetManager} (h : Reachable Initial Step m) {r : PeerRef}
    (hr : r < m.peerCount) (request : NetConnectRequestPacket) :
    ((m.peerAt r).acceptSent request ≠ some none ∧
      ∀ deltaTime, m.requestSent r deltaTime ≠ some none) ↔
    ¬ ((m.peerAt r).connectionState = .connected ∧
      (m.peerAt r).connectRequestPacket.isSome = true ∧
      request.connectionTime = (m.peerAt r).connectTime) := by
  have hw := (consistent_of_reachable h).wellFormed r hr
  have hrequest : ∀ deltaTime, m.requestSent r deltaTime ≠ some none := by
    intro deltaTime
    rw [requestSent]
    split_ifs with hc
    · have hsome : (m.peerAt r).connectRequestPacket.isSome = true := hw.outgoing hc.1
      intro hnone
      rw [Option.some.inj hnone] at hsome
      cases hsome
    · exact nofun
  rw [NetPeer.acceptSent]
  constructor
  · rintro ⟨haccept, -⟩ ⟨hs, hown, ht⟩
    have hnone : (m.peerAt r).connectAcceptPacket = none := hw.oneOrigin hown
    rw [if_pos ⟨hs, ht⟩, hnone] at haccept
    exact haccept rfl
  · intro hc
    refine ⟨?_, hrequest⟩
    split_ifs with ha
    · have horigin := (hw.connected ha.1).resolve_left (fun hown => hc ⟨ha.1, hown, ha.2⟩)
      intro hnone
      have haccept : (m.peerAt r).connectAcceptPacket.isSome = true := horigin
      rw [Option.some.inj hnone] at haccept
      cases haccept
    · exact nofun

theorem stored_iff_connected : ¬ ((connectedClient.peerAt 0).acceptSent
    ⟨5, 0, ⟨2, 1, 3, 0⟩, ⟨[], 0, 0⟩, 0, .empty⟩ ≠ some none ∧
      ∀ deltaTime, connectedClient.requestSent 0 deltaTime ≠ some none) := by
  rw [stored_iff connectedClient_reachable (by decide +kernel)]
  decide +kernel

/-- The server of a connected client asks it for a connection of the client's own time. -/
theorem not_always_stored : ¬ ∀ m, Reachable Initial Step m → ∀ r < m.peerCount,
    ∀ packet request, NetConnectRequestPacket.fromData packet = some request →
      (m.peerAt r).acceptSent request ≠ some none := by
  intro h
  have hsome : ((NetConnectRequestPacket.fromData (NetConnectRequestPacket.make [] ⟨2, 1, 3, 0⟩ 5
      0)).map NetConnectRequestPacket.connectionTime) = some 5 := by decide +kernel
  obtain ⟨request, hrequest, ht⟩ := Option.map_eq_some_iff.mp hsome
  have hclient : (connectedClient.peerAt 0).connectionState = .connected ∧
      (connectedClient.peerAt 0).connectTime = 5 ∧
      (connectedClient.peerAt 0).connectAcceptPacket.isNone = true := by decide +kernel
  have hsent := h connectedClient connectedClient_reachable 0 (by decide +kernel) _ request hrequest
  generalize connectedClient.peerAt 0 = p at hclient hsent
  apply hsent
  rw [NetPeer.acceptSent, if_pos ⟨hclient.1, ht.trans hclient.2.1.symm⟩,
    Option.isNone_iff_eq_none.mp hclient.2.2]

end NetManager

end LiteNet.Manager
