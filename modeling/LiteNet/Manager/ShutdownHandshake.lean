import LiteNet.Manager.Registry
import LiteNet.Manager.SendFrame

/-! # The answer to a disconnect packet

A peer that requested the shutdown waits for its answer and sends its disconnect
packet again until the timeout. Received packets are checked for a connected peer
first, so the answer never reaches the case for it.
-/

namespace LiteNet.Manager
open Library Wire Channels

namespace NetManager

/-- What happens to one peer: a packet handed to `process_packet`, or an `update`. -/
inductive PeerStep where
  | receive (packet : NetPacket)
  | update (deltaTime : ℤ)

def peerStep (r : PeerRef) (m : NetManager) : PeerStep → NetManager
  | .receive packet => m.processPacket r packet
  | .update deltaTime => m.update r deltaTime

def runPeer (m : NetManager) (r : PeerRef) (steps : List PeerStep) : NetManager :=
  steps.foldl (peerStep r) m

/-- The time that updates have been told of. -/
def elapsed (steps : List PeerStep) : ℤ :=
  (steps.map fun
    | .receive _ => 0
    | .update deltaTime => deltaTime).sum

/-- Some update of the run found the disconnect timeout exceeded by the counter, which wraps. -/
def Expired (m : NetManager) (r : PeerRef) (steps : List PeerStep) : Prop :=
  ∃ before deltaTime, before ++ [.update deltaTime] <+: steps ∧
    m.disconnectTimeout <
      wrapInt32 ((m.peerAt r).timeSinceLastPacket + elapsed before + deltaTime)

variable {m : NetManager} {r : PeerRef}

/-- The peer waits for the answer, or has given up. -/
def Ended (p : NetPeer) : Prop :=
  p.connectionState = .shutdownRequested ∨ p.connectionState = .disconnected

theorem processPacket_ended (h : Ended (m.peerAt r)) (packet : NetPacket) :
    m.processPacket r packet = m.poolRecycle packet := by
  have hc : (m.peerAt r).isConnected = false := by
    rw [NetPeer.isConnected]
    rcases h with h | h <;> rw [h] <;> decide
  rw [processPacket, processPacketTo, processPacketWith]
  simp only [hc, Bool.not_false, if_true]

/-- Nothing that a send does about an unreachable host touches a peer that has ended. -/
theorem sendRaw_ended (h : Ended (m.peerAt r)) (bytes : Bytes) (endpoint : NetAddress) :
    (m.sendRaw bytes endpoint).1.peerAt r = m.peerAt r ∧
      (m.sendRaw bytes endpoint).1.disconnectTimeout = m.disconnectTimeout := by
  have hforce : ∀ (x : NetManager) reason code, x.peerAt = m.peerAt →
      (x.disconnectPeerForce endpoint reason code none).peerAt r = m.peerAt r ∧
        (x.disconnectPeerForce endpoint reason code none).disconnectTimeout =
          x.disconnectTimeout := by
    intro x reason code hx
    rw [disconnectPeerForce]
    split
    · exact ⟨congrFun hx r, rfl⟩
    · next q hq =>
      have hset : (x.setPeer q (x.peerAt q).shutdownForce.1).peerAt r = m.peerAt r := by
        by_cases hqr : r = q
        · subst hqr
          rw [setPeer_self, hx, NetPeer.shutdownForce]
          rcases h with hs | hs <;> rw [hs]
        · rw [setPeer_of_ne _ hqr, hx]
      rw [noteShutdown]
      split <;> exact ⟨hset, rfl⟩
  obtain ⟨results, hsent | ⟨reason, code, hsent⟩⟩ := m.sendRaw_cases bytes endpoint
  · rw [hsent]
    exact ⟨rfl, rfl⟩
  · rw [hsent, unreachable]
    split
    · exact hforce _ reason code rfl
    · exact ⟨rfl, rfl⟩

/-- What a step leaves of a peer that has ended. -/
structure StepsTo (r : PeerRef) (m : NetManager) (step : PeerStep) (m' : NetManager) : Prop where
  ended : Ended (m'.peerAt r)
  disconnectTimeout : m'.disconnectTimeout = m.disconnectTimeout
  time : wrapInt32 (m'.peerAt r).timeSinceLastPacket =
    wrapInt32 ((m.peerAt r).timeSinceLastPacket + elapsed [step])
  state : (m'.peerAt r).connectionState = .disconnected ↔
    (m.peerAt r).connectionState = .disconnected ∨ ∃ deltaTime, step = .update deltaTime ∧
      m.disconnectTimeout < wrapInt32 ((m.peerAt r).timeSinceLastPacket + deltaTime)
  silent : (m.peerAt r).connectionState = .disconnected → m'.sent = m.sent

theorem receive_ended (h : Ended (m.peerAt r)) (packet : NetPacket) :
    StepsTo r m (.receive packet) (m.processPacket r packet) := by
  obtain ⟨hpeer, hsent, htimeout⟩ := poolRecycle_frame m packet
  rw [processPacket_ended h]
  refine ⟨by rw [hpeer]; exact h, htimeout, ?_, ?_, fun _ => hsent⟩
  · rw [hpeer]
    exact congrArg wrapInt32 (Int.add_zero _).symm
  · rw [hpeer]
    exact ⟨.inl, fun hs => hs.elim id (fun ⟨_, he, _⟩ => by cases he)⟩

theorem updateShutdown_ended (hs : (m.peerAt r).connectionState = .shutdownRequested)
    (deltaTime : ℤ) :
    Ended ((m.updateShutdown r deltaTime).peerAt r) ∧
      (m.updateShutdown r deltaTime).disconnectTimeout = m.disconnectTimeout ∧
      ((m.updateShutdown r deltaTime).peerAt r).timeSinceLastPacket =
        (m.peerAt r).timeSinceLastPacket ∧
      (((m.updateShutdown r deltaTime).peerAt r).connectionState = .disconnected ↔
        m.disconnectTimeout < (m.peerAt r).timeSinceLastPacket) := by
  have hwaits : ∀ p : NetPeer, p.connectionState = .shutdownRequested →
      ¬ p.connectionState = .disconnected := fun p hp => by rw [hp]; decide
  rw [updateShutdown]
  dsimp only
  split
  · next hlt =>
    rw [setPeer_self]
    exact ⟨.inr rfl, rfl, rfl, iff_of_true rfl hlt⟩
  · next hlt =>
    split
    · obtain ⟨hpeer, htimeout⟩ := sendRaw_ended (r := r) (m := m.setPeer r { m.peerAt r with
        shutdownTimer := 0 }) (by rw [setPeer_self]; exact .inl hs)
        (m.peerAt r).shutdownPacket.wire (m.peerAt r).endpoint
      rw [hpeer, htimeout, setPeer_self]
      exact ⟨.inl hs, rfl, rfl, iff_of_false (hwaits _ hs) hlt⟩
    · rw [setPeer_self]
      exact ⟨.inl hs, rfl, rfl, iff_of_false (hwaits _ hs) hlt⟩

theorem update_ended (h : Ended (m.peerAt r)) (deltaTime : ℤ) :
    StepsTo r m (.update deltaTime) (m.update r deltaTime) := by
  have htime : elapsed [.update deltaTime] = deltaTime := by simp [elapsed]
  obtain ⟨p, hp⟩ : ∃ p, p = { m.peerAt r with
    timeSinceLastPacket := wrapInt32 ((m.peerAt r).timeSinceLastPacket + deltaTime) } := ⟨_, rfl⟩
  have hpeer : (m.setPeer r p).peerAt r = p := setPeer_self ..
  have hstate : p.connectionState = (m.peerAt r).connectionState := by rw [hp]
  have hsince : p.timeSinceLastPacket =
      wrapInt32 ((m.peerAt r).timeSinceLastPacket + deltaTime) := by rw [hp]
  rcases h with hs | hs
  · have hupdate : m.update r deltaTime = (m.setPeer r p).updateShutdown r deltaTime := by
      rw [update, hp]
      simp only [hs]
    have hp' : ((m.setPeer r p).peerAt r).connectionState = .shutdownRequested := by
      rw [hpeer, hstate, hs]
    obtain ⟨hended, htimeout, hkept, hiff⟩ := updateShutdown_ended hp' deltaTime
    rw [hpeer] at hkept hiff
    rw [hupdate]
    refine ⟨hended, htimeout, by rw [hkept, hsince, htime, wrapInt32_self], ?_, fun hd => ?_⟩
    · rw [hiff, hsince, hs]
      constructor
      · exact fun hlt => .inr ⟨deltaTime, rfl, hlt⟩
      · rintro (hd | ⟨_, he, hlt⟩)
        · cases hd
        · cases he
          exact hlt
    · rw [hs] at hd
      cases hd
  · have hupdate : m.update r deltaTime = m.setPeer r p := by
      rw [update, hp]
      simp only [hs]
    rw [hupdate]
    refine ⟨.inr ?_, rfl, ?_, ?_, fun _ => rfl⟩
    · rw [hpeer, hstate, hs]
    · rw [hpeer, hsince, htime, wrapInt32_self]
    · rw [hpeer, hstate]
      exact iff_of_true hs (.inl hs)

theorem peerStep_ended (h : Ended (m.peerAt r)) (step : PeerStep) :
    StepsTo r m step (peerStep r m step) := by
  cases step with
  | receive packet => exact receive_ended h packet
  | update deltaTime => exact update_ended h deltaTime

theorem runPeer_append (m : NetManager) (r : PeerRef) (a b : List PeerStep) :
    m.runPeer r (a ++ b) = (m.runPeer r a).runPeer r b := List.foldl_append

theorem elapsed_append (a b : List PeerStep) : elapsed (a ++ b) = elapsed a + elapsed b := by
  simp [elapsed]

/-- A run ends in the state its updates alone decide. -/
theorem runPeer_ended (hs : (m.peerAt r).connectionState = .shutdownRequested)
    (steps : List PeerStep) :
    Ended ((m.runPeer r steps).peerAt r) ∧
      (m.runPeer r steps).disconnectTimeout = m.disconnectTimeout ∧
      wrapInt32 ((m.runPeer r steps).peerAt r).timeSinceLastPacket =
        wrapInt32 ((m.peerAt r).timeSinceLastPacket + elapsed steps) ∧
      (((m.runPeer r steps).peerAt r).connectionState = .disconnected ↔ Expired m r steps) := by
  induction steps using List.reverseRecOn with
  | nil =>
    refine ⟨.inl hs, rfl, congrArg wrapInt32 (Int.add_zero _).symm, ?_⟩
    refine iff_of_false (fun hd => ?_) (fun ⟨before, deltaTime, hb, _⟩ => ?_)
    · cases hs.symm.trans hd
    · simp at hb
  | append_singleton before step ih =>
    obtain ⟨hended, htimeout, htime, hstate⟩ := ih
    have hstep := peerStep_ended hended step
    rw [runPeer_append]
    refine ⟨hstep.ended, hstep.disconnectTimeout.trans htimeout, ?_, ?_⟩
    · rw [elapsed_append, ← Int.add_assoc, ← wrapInt32_add, ← htime, wrapInt32_add]
      exact hstep.time
    · have hsum : ∀ deltaTime, wrapInt32 (((m.runPeer r before).peerAt r).timeSinceLastPacket +
          deltaTime) = wrapInt32 ((m.peerAt r).timeSinceLastPacket + elapsed before +
            deltaTime) := fun deltaTime => by
        rw [← wrapInt32_add, htime, wrapInt32_add]
      refine hstep.state.trans ?_
      simp only [hstate, htimeout, hsum]
      constructor
      · rintro (⟨b, deltaTime, hb, hlt⟩ | ⟨deltaTime, rfl, hlt⟩)
        · exact ⟨b, deltaTime, hb.trans (List.prefix_append _ _), hlt⟩
        · exact ⟨before, deltaTime, List.prefix_rfl, hlt⟩
      · rintro ⟨b, deltaTime, hb, hlt⟩
        rcases List.prefix_concat_iff.mp hb with he | hb
        · obtain ⟨hb, hlast⟩ := List.append_inj' he rfl
          subst hb
          exact .inr ⟨deltaTime, (List.cons.inj hlast).1.symm, hlt⟩
        · exact .inl ⟨b, deltaTime, hb, hlt⟩

/-- A peer that has given up stays so and sends nothing. -/
theorem runPeer_silent (hd : (m.peerAt r).connectionState = .disconnected)
    (steps : List PeerStep) :
    ((m.runPeer r steps).peerAt r).connectionState = .disconnected ∧
      (m.runPeer r steps).sent = m.sent := by
  induction steps using List.reverseRecOn with
  | nil => exact ⟨hd, rfl⟩
  | append_singleton before step ih =>
    obtain ⟨hstate, hsent⟩ := ih
    have hstep := peerStep_ended (.inr hstate) step
    rw [runPeer_append]
    exact ⟨hstep.state.mpr (.inl hstate), (hstep.silent hstate).trans hsent⟩

/-- A peer that was answered is disconnected, and later updates send nothing. -/
def AnswerEnds (m : NetManager) (r : PeerRef) (steps : List PeerStep) : Prop :=
  ∀ before packet after, steps = before ++ .receive packet :: after →
    packet.property = .shutdownOk →
    ((m.runPeer r (before ++ [.receive packet])).peerAt r).connectionState = .disconnected ∧
      ∀ later deltaTime, later ++ [.update deltaTime] <+: after →
        (m.runPeer r (before ++ .receive packet :: later ++ [.update deltaTime])).sent =
          (m.runPeer r (before ++ .receive packet :: later)).sent

/-- The answer ends the shutdown only where the timeout has ended it before. -/
theorem answerEnds_iff (hs : (m.peerAt r).connectionState = .shutdownRequested)
    (steps : List PeerStep) :
    AnswerEnds m r steps ↔
      ∀ before packet after, steps = before ++ .receive packet :: after →
        packet.property = .shutdownOk → Expired m r before := by
  have hreceive : ∀ before packet,
      ((m.runPeer r (before ++ [.receive packet])).peerAt r).connectionState = .disconnected ↔
        Expired m r before := by
    intro before packet
    obtain ⟨hended, -, -, hstate⟩ := runPeer_ended hs before
    rw [runPeer_append]
    refine (receive_ended hended packet).state.trans ?_
    rw [hstate]
    exact or_iff_left fun ⟨_, he, _⟩ => by cases he
  constructor
  · intro h before packet after hsteps hok
    exact (hreceive before packet).mp (h before packet after hsteps hok).1
  · intro h before packet after hsteps hok
    have hd := (hreceive before packet).mpr (h before packet after hsteps hok)
    refine ⟨hd, fun later deltaTime _ => ?_⟩
    have happend : before ++ .receive packet :: later =
        before ++ [.receive packet] ++ later := by simp
    have hlater : ((m.runPeer r (before ++ [.receive packet] ++ later)).peerAt
        r).connectionState = .disconnected := by
      rw [runPeer_append]
      exact (runPeer_silent hd later).1
    rw [happend, runPeer_append]
    exact (runPeer_silent hlater [.update deltaTime]).2

/-- A manager whose only peer was told to disconnect before its request was answered. -/
def disconnecting : NetManager :=
  ((NetManager.new (.const 5) (.const 0) (.const .ok)).connect ⟨2, 1, 2, 0⟩ [] 0).1.disconnectAll
    none 0 0

/-- The answer of its remote host. -/
def shutdownOkPacket : NetPacket := (disconnecting.poolGetWithProperty .shutdownOk 0).1

theorem answerEnds_iff_disconnecting :
    AnswerEnds disconnecting 0 [.update 5001, .receive shutdownOkPacket, .update 300] ↔
      ∀ before packet after,
        [.update 5001, .receive shutdownOkPacket, .update 300] =
          before ++ .receive packet :: after →
        packet.property = .shutdownOk → Expired disconnecting 0 before :=
  answerEnds_iff (by decide +kernel) _

/-- An answer that arrives in time is recycled unread. -/
theorem not_always_answerEnds :
    ¬ ∀ (m : NetManager) (r : PeerRef) (steps : List PeerStep),
      (m.peerAt r).connectionState = .shutdownRequested → AnswerEnds m r steps := by
  intro h
  have hends := (h disconnecting 0 [.receive shutdownOkPacket] (by decide +kernel) [] _ [] rfl
    (by decide +kernel)).1
  revert hends
  decide +kernel

end NetManager

end LiteNet.Manager
