import LiteNet.Manager.DispatchChanges
import LiteNet.Manager.Serving

/-! # The round-trip time

A ping starts the timer, and a pong with its number stops it and takes a sample; a
timer that still runs at the next ping gives a sample there. `process_packet` does not
ask whether the timer runs, so a pong that comes again takes the same sample again.
While every pong comes to a running timer there is one sample a ping, and resets keep
the sum of the samples small.
-/

namespace LiteNet.Manager
open Library Wire Channels

namespace RoundTrip

/-- The fields of a new peer. -/
def new (pingPacket : NetPacket) : RoundTrip where
  pingTimer := .new
  pingSendTimer := 0
  pingPacket := pingPacket
  estimate := .new
  rttResetTimer := 0

variable (q : RoundTrip) (interval deltaTime now : ℤ)

/-- What the ping of `update` does. -/
def ping : RoundTrip :=
  if interval ≤ q.pingSendTimer + deltaTime then
    { q with
      pingTimer := q.pingTimer.restart now
      pingSendTimer := 0
      pingPacket := q.pingPacket.setSequence ((q.pingPacket.sequence + 1) % 65536)
      estimate :=
        if q.pingTimer.running then q.estimate.add (q.pingTimer.milliseconds now) else q.estimate }
  else { q with pingSendTimer := q.pingSendTimer + deltaTime }

/-- What the round-trip reset of `update` does. -/
def reset : RoundTrip :=
  if interval * 3 < q.rttResetTimer + deltaTime then
    { q with rttResetTimer := 0, estimate := q.estimate.restart }
  else { q with rttResetTimer := q.rttResetTimer + deltaTime }

/-- What a pong with the number of the last ping does. -/
def pong : RoundTrip :=
  { q with
    pingTimer := q.pingTimer.stop now
    estimate := q.estimate.add ((q.pingTimer.stop now).milliseconds now) }

/-- One while the last ping may still be measured. -/
def waiting : ℤ := if q.pingTimer.running then 1 else 0

/-- Pings are at least an interval apart, and a reset comes after three. -/
structure Paced : Prop where
  sendTimer : 0 ≤ q.pingSendTimer
  resetTimer : 0 ≤ q.rttResetTimer
  often : interval ≤ 0 → q.estimate.count + q.waiting ≤ 2
  apart : 0 < interval → q.pingSendTimer < interval ∧ q.rttResetTimer ≤ 3 * interval ∧
    interval * (q.estimate.count + q.waiting) + q.pingSendTimer ≤ q.rttResetTimer + 3 * interval

variable {q interval deltaTime}

theorem waiting_of_running (h : q.pingTimer.running = true) : q.waiting = 1 := if_pos h

theorem waiting_of_stopped (h : q.pingTimer.running = false) : q.waiting = 0 :=
  if_neg (by simp [h])

theorem ping_of_running (h : interval ≤ q.pingSendTimer + deltaTime)
    (hrunning : q.pingTimer.running = true) :
    q.ping interval deltaTime now = { q with
      pingTimer := q.pingTimer.restart now
      pingSendTimer := 0
      pingPacket := q.pingPacket.setSequence ((q.pingPacket.sequence + 1) % 65536)
      estimate := q.estimate.add (q.pingTimer.milliseconds now) } := by
  rw [ping, if_pos h, if_pos hrunning]

theorem ping_of_stopped (h : interval ≤ q.pingSendTimer + deltaTime)
    (hstopped : q.pingTimer.running = false) :
    q.ping interval deltaTime now = { q with
      pingTimer := q.pingTimer.restart now
      pingSendTimer := 0
      pingPacket := q.pingPacket.setSequence ((q.pingPacket.sequence + 1) % 65536) } := by
  rw [ping, if_pos h, if_neg (by simp [hstopped])]

/-- A ping is counted with the one that was waited for, and is waited for itself. -/
theorem ping_of_due (h : interval ≤ q.pingSendTimer + deltaTime) :
    (q.ping interval deltaTime now).pingSendTimer = 0 ∧
      (q.ping interval deltaTime now).waiting = 1 ∧
      (q.ping interval deltaTime now).estimate.count = q.estimate.count + q.waiting ∧
      (q.ping interval deltaTime now).rttResetTimer = q.rttResetTimer := by
  cases hrunning : q.pingTimer.running with
  | true =>
    rw [q.ping_of_running now h hrunning, waiting_of_running hrunning]
    exact ⟨rfl, rfl, rfl, rfl⟩
  | false =>
    rw [q.ping_of_stopped now h hrunning, waiting_of_stopped hrunning, add_zero]
    exact ⟨rfl, rfl, rfl, rfl⟩

theorem ping_of_not_due (h : ¬ interval ≤ q.pingSendTimer + deltaTime) :
    q.ping interval deltaTime now = { q with pingSendTimer := q.pingSendTimer + deltaTime } :=
  if_neg h

theorem reset_of_due (h : interval * 3 < q.rttResetTimer + deltaTime) :
    q.reset interval deltaTime = { q with rttResetTimer := 0, estimate := q.estimate.restart } :=
  if_pos h

theorem reset_of_not_due (h : ¬ interval * 3 < q.rttResetTimer + deltaTime) :
    q.reset interval deltaTime = { q with rttResetTimer := q.rttResetTimer + deltaTime } :=
  if_neg h

theorem new_paced (pingPacket : NetPacket) (interval : ℤ) : (new pingPacket).Paced interval where
  sendTimer := le_rfl
  resetTimer := le_rfl
  often := fun _ => Int.zero_le_ofNat 2
  apart := fun hpos => by
    change 0 < interval ∧ 0 ≤ 3 * interval ∧ interval * (0 + 0) + 0 ≤ 0 + 3 * interval
    omega

/-- An answered ping is counted and is not waited for any more. -/
theorem pong_count (h : q.pingTimer.running = true) :
    (q.pong now).estimate.count + (q.pong now).waiting = q.estimate.count + q.waiting := by
  have hstopped : (q.pong now).waiting = 0 := by
    rw [waiting, pong, NetStopwatch.stop, if_pos h]
    rfl
  rw [hstopped, waiting_of_running h]
  exact add_zero _

theorem Paced.pong (h : q.Paced interval) (hrunning : q.pingTimer.running = true) (now : ℤ) :
    (q.pong now).Paced interval where
  sendTimer := h.sendTimer
  resetTimer := h.resetTimer
  often := by
    rw [pong_count now hrunning]
    exact h.often
  apart := by
    rw [pong_count now hrunning]
    exact h.apart

theorem waiting_le_one (q : RoundTrip) : q.waiting ≤ 1 := by
  rw [waiting]
  split <;> decide

/-- The reset leaves one sample, or is not yet due. -/
theorem reset_paced (hsend : 0 ≤ q.pingSendTimer) (hreset : 0 ≤ q.rttResetTimer)
    (hdelta : 1 ≤ deltaTime)
    (hapart : 0 < interval → q.pingSendTimer < interval ∧
      interval * (q.estimate.count + q.waiting) + q.pingSendTimer ≤
        q.rttResetTimer + deltaTime + 3 * interval) :
    (q.reset interval deltaTime).Paced interval := by
  have hwaiting := q.waiting_le_one
  rw [reset]
  split
  · refine ⟨hsend, le_rfl, fun _ => ?_, fun hpos => ⟨(hapart hpos).1, ?_, ?_⟩⟩
    · change 1 + q.waiting ≤ 2
      omega
    · change 0 ≤ 3 * interval
      omega
    · change interval * (1 + q.waiting) + q.pingSendTimer ≤ 0 + 3 * interval
      have hone : interval * (1 + q.waiting) ≤ interval * 2 :=
        mul_le_mul_of_nonneg_left (by omega) hpos.le
      have hlt := (hapart hpos).1
      omega
  · next hearly =>
    refine ⟨hsend, ?_, fun hneg => ?_, fun hpos => ⟨(hapart hpos).1, ?_, (hapart hpos).2⟩⟩
    · change 0 ≤ q.rttResetTimer + deltaTime
      omega
    · omega
    · change q.rttResetTimer + deltaTime ≤ 3 * interval
      omega

theorem Paced.update (h : q.Paced interval) (hdelta : 1 ≤ deltaTime) (now : ℤ) :
    ((q.ping interval deltaTime now).reset interval deltaTime).Paced interval := by
  obtain ⟨hsend, hreset, -, hapart⟩ := h
  by_cases hdue : interval ≤ q.pingSendTimer + deltaTime
  · obtain ⟨hsend', hwaiting', hcount', hreset'⟩ := q.ping_of_due now hdue
    generalize q.ping interval deltaTime now = q' at *
    have hgrown : interval * (q'.estimate.count + q'.waiting) =
        interval * (q.estimate.count + q.waiting) + interval := by
      rw [hcount', hwaiting']
      ring
    refine reset_paced hsend'.ge (hreset.trans hreset'.ge) hdelta (fun hpos => ?_)
    obtain ⟨-, -, hsum⟩ := hapart hpos
    rw [hgrown, hsend', hreset']
    omega
  · rw [q.ping_of_not_due now hdue]
    refine reset_paced ?_ hreset hdelta (fun hpos => ?_)
    · change 0 ≤ q.pingSendTimer + deltaTime
      omega
    · obtain ⟨-, -, hsum⟩ := hapart hpos
      change q.pingSendTimer + deltaTime < interval ∧
        interval * (q.estimate.count + q.waiting) + (q.pingSendTimer + deltaTime) ≤
          q.rttResetTimer + deltaTime + 3 * interval
      omega

/-- The largest of some samples, none of which is negative. -/
def largest (samples : List ℤ) : ℤ := samples.foldl max 0

theorem largest_concat (samples : List ℤ) (sample : ℤ) :
    largest (samples ++ [sample]) = max (largest samples) sample := List.foldl_concat ..

/-- The average is one of the samples taken, and every ping is either sampled or waited for. -/
structure Sound (q : RoundTrip) (interval : ℤ) (samples : List ℤ) (pings : ℕ) : Prop where
  within : q.estimate.Within (largest samples)
  accounted : samples.length + q.waiting = pings
  paced : q.Paced interval

/-- The sample that the ping of `update` takes. -/
def pingSamples (q : RoundTrip) (interval deltaTime now : ℤ) : List ℤ :=
  if interval ≤ q.pingSendTimer + deltaTime ∧ q.pingTimer.running = true then
    [q.pingTimer.milliseconds now]
  else []

section Sound

variable {samples : List ℤ} {pings : ℕ} {sample : ℤ}

theorem new_sound (pingPacket : NetPacket) (interval : ℤ) :
    (new pingPacket).Sound interval [] 0 :=
  ⟨RunningAverage.new_within le_rfl, rfl, new_paced pingPacket interval⟩

theorem within_concat {a : RunningAverage} (h : a.Within (largest samples)) (hpos : 0 ≤ sample) :
    (a.add sample).Within (largest (samples ++ [sample])) := by
  rw [largest_concat]
  exact (h.mono (le_max_left _ _)).add hpos (le_max_right _ _)

theorem Sound.pong (h : q.Sound interval samples pings) (hrunning : q.pingTimer.running = true)
    (hpos : 0 ≤ (q.pingTimer.stop now).milliseconds now) :
    (q.pong now).Sound interval (samples ++ [(q.pingTimer.stop now).milliseconds now]) pings := by
  refine ⟨within_concat h.within hpos, ?_, h.paced.pong hrunning now⟩
  have haccounted := h.accounted
  have hcount := pong_count now hrunning
  have hadded : (q.pong now).estimate.count = q.estimate.count + 1 := rfl
  rw [List.length_append, List.length_singleton]
  push_cast
  omega

theorem Sound.update (h : q.Sound interval samples pings) (hdelta : 1 ≤ deltaTime)
    (hpos : ∀ s ∈ q.pingSamples interval deltaTime now, 0 ≤ s) :
    ((q.ping interval deltaTime now).reset interval deltaTime).Sound interval
      (samples ++ q.pingSamples interval deltaTime now)
      (pings + if interval ≤ q.pingSendTimer + deltaTime then 1 else 0) := by
  suffices hping : (q.ping interval deltaTime now).estimate.Within
      (largest (samples ++ q.pingSamples interval deltaTime now)) ∧
      (samples ++ q.pingSamples interval deltaTime now).length +
        (q.ping interval deltaTime now).waiting =
          pings + if interval ≤ q.pingSendTimer + deltaTime then 1 else 0 by
    refine ⟨?_, ?_, h.paced.update hdelta now⟩
    · rw [reset]
      split
      · exact hping.1.restart
      · exact hping.1
    · have hwaiting : ((q.ping interval deltaTime now).reset interval deltaTime).waiting =
          (q.ping interval deltaTime now).waiting := by
        rw [reset]
        split <;> rfl
      rw [hwaiting, hping.2]
      push_cast
      rfl
  have haccounted := h.accounted
  rw [pingSamples] at hpos ⊢
  by_cases hdue : interval ≤ q.pingSendTimer + deltaTime
  · cases hrunning : q.pingTimer.running with
    | true =>
      rw [if_pos ⟨hdue, hrunning⟩] at hpos
      rw [if_pos ⟨hdue, rfl⟩, q.ping_of_running now hdue hrunning, if_pos hdue]
      refine ⟨within_concat h.within (hpos _ List.mem_cons_self), ?_⟩
      rw [waiting_of_running hrunning] at haccounted
      rw [List.length_append, List.length_singleton]
      push_cast
      rw [haccounted]
      rfl
    | false =>
      rw [if_neg (by simp), q.ping_of_stopped now hdue hrunning, if_pos hdue, List.append_nil]
      refine ⟨h.within, ?_⟩
      rw [waiting_of_stopped hrunning, add_zero] at haccounted
      rw [haccounted]
      rfl
  · rw [if_neg (by simp [hdue]), q.ping_of_not_due now hdue, if_neg hdue, List.append_nil]
    exact ⟨h.within, haccounted.trans (add_zero _).symm⟩

end Sound

end RoundTrip

namespace NetManager

/-- The round trip of the peer `r` and the interval of its pings. -/
structure Measures (r : PeerRef) (q : RoundTrip) (interval : ℤ) (m : NetManager) : Prop where
  roundTrip : (m.peerAt r).roundTrip = q
  pingInterval : m.pingInterval = interval

section Measures

variable {m : NetManager} {r : PeerRef} {q : RoundTrip} {interval : ℤ}

theorem Measures.disconnectPeerForce (h : Measures r q interval m) (address : NetAddress)
    (reason : DisconnectReason) (code : ℕ) :
    Measures r q interval (m.disconnectPeerForce address reason code none) where
  roundTrip := by
    obtain ⟨⟨state, hpeer⟩, -⟩ := m.disconnectPeerForce_frame address reason code r
    rw [hpeer]
    exact h.roundTrip
  pingInterval := by
    rw [NetManager.disconnectPeerForce]
    split
    · exact h.pingInterval
    · rw [noteShutdown]
      split <;> exact h.pingInterval

theorem Measures.sendRaw (h : Measures r q interval m) (bytes : Bytes) (endpoint : NetAddress) :
    Measures r q interval (m.sendRaw bytes endpoint).1 := by
  have hlogged : ∀ results, Measures r q interval
      { m.logSent ⟨endpoint, bytes⟩ with sendResults := results } :=
    fun _ => ⟨h.roundTrip, h.pingInterval⟩
  obtain ⟨results, hsent | ⟨reason, code, hsent⟩⟩ := m.sendRaw_cases bytes endpoint
  · rw [hsent]
    exact hlogged results
  · rw [hsent, unreachable]
    split
    · have hshut := (hlogged results).disconnectPeerForce endpoint reason code
      exact ⟨hshut.roundTrip, hshut.pingInterval⟩
    · exact ⟨h.roundTrip, h.pingInterval⟩

theorem Measures.poolRecycle (h : Measures r q interval m) (packet : NetPacket) :
    Measures r q interval (m.poolRecycle packet) := by
  rw [NetManager.poolRecycle]
  split
  · exact h
  · exact ⟨h.roundTrip, h.pingInterval⟩

theorem measures_setPeer (hinterval : m.pingInterval = interval) {p : NetPeer}
    (hp : p.roundTrip = q) : Measures r q interval (m.setPeer r p) where
  roundTrip := by rw [setPeer_self, hp]
  pingInterval := hinterval

theorem servingKeeps_measures (r : PeerRef) (q : RoundTrip) (interval : ℤ) :
    ServingKeeps r (Measures r q interval) where
  setPeer := fun _ _ h hp => measures_setPeer h.pingInterval (hp.trans h.roundTrip)
  createEvent := fun _ _ h => ⟨h.roundTrip, h.pingInterval⟩
  poolRecycle := fun _ packet h => h.poolRecycle packet
  poolGetPacket := fun m size h => by
    rw [poolGetPacket]
    split
    · exact h
    · exact ⟨h.roundTrip, h.pingInterval⟩
  sendRaw := fun _ bytes endpoint h => h.sendRaw bytes endpoint
  getCurrentTime := fun _ h => ⟨h.roundTrip, h.pingInterval⟩

theorem Measures.updatePing (h : Measures r q interval m) (deltaTime : ℤ) :
    Measures r (q.ping interval deltaTime m.highResolutionTimes.head) interval
      (m.updatePing r deltaTime) := by
  obtain ⟨rfl, rfl⟩ := h
  rw [NetManager.updatePing]
  dsimp only
  by_cases hdue : m.pingInterval ≤ (m.peerAt r).pingSendTimer + deltaTime
  · rw [if_pos hdue]
    apply Measures.sendRaw
    apply measures_setPeer
    · rfl
    · cases hrunning : (m.peerAt r).pingTimer.running with
      | true =>
        rw [if_pos rfl]
        exact (RoundTrip.ping_of_running (q := (m.peerAt r).roundTrip) _ hdue hrunning).symm
      | false =>
        rw [if_neg Bool.false_ne_true]
        exact (RoundTrip.ping_of_stopped (q := (m.peerAt r).roundTrip) _ hdue hrunning).symm
  · rw [if_neg hdue, RoundTrip.ping_of_not_due (q := (m.peerAt r).roundTrip) _ hdue]
    exact measures_setPeer rfl rfl

theorem Measures.updateRtt (h : Measures r q interval m) (deltaTime : ℤ) :
    Measures r (q.reset interval deltaTime) interval (m.updateRtt r deltaTime) := by
  obtain ⟨rfl, rfl⟩ := h
  rw [NetManager.updateRtt]
  dsimp only
  by_cases hdue : m.pingInterval * 3 < (m.peerAt r).rttResetTimer + deltaTime
  · rw [if_pos hdue]
    exact measures_setPeer rfl (RoundTrip.reset_of_due (q := (m.peerAt r).roundTrip) hdue).symm
  · rw [if_neg hdue]
    exact measures_setPeer rfl (RoundTrip.reset_of_not_due (q := (m.peerAt r).roundTrip) hdue).symm

theorem Measures.updateConnected (h : Measures r q interval m) (deltaTime : ℤ) :
    Measures r ((q.ping interval deltaTime m.highResolutionTimes.head).reset interval deltaTime)
      interval (m.updateConnected r deltaTime) := by
  have hkeeps := servingKeeps_measures r
    ((q.ping interval deltaTime m.highResolutionTimes.head).reset interval deltaTime) interval
  have hmtu := hkeeps.updateMtuLogic ((h.updatePing deltaTime).updateRtt deltaTime) deltaTime
  rw [NetManager.updateConnected]
  exact hkeeps.sendMerged (hkeeps.updateUnreliable (hkeeps.updateChannels _ hmtu))

/-- `update` measures connected peers that have not timed out. -/
def updatesConnected (m : NetManager) (r : PeerRef) (deltaTime : ℤ) : Bool :=
  (m.peerAt r).connectionState = .connected &&
    wrapInt32 ((m.peerAt r).timeSinceLastPacket + deltaTime) ≤ m.disconnectTimeout

theorem Measures.updateShutdown (h : Measures r q interval m) (deltaTime : ℤ) :
    Measures r q interval (m.updateShutdown r deltaTime) := by
  rw [NetManager.updateShutdown]
  dsimp only
  split_ifs
  · exact measures_setPeer h.pingInterval h.roundTrip
  · apply Measures.sendRaw
    exact measures_setPeer h.pingInterval h.roundTrip
  · exact measures_setPeer h.pingInterval h.roundTrip

theorem Measures.updateOutgoing (h : Measures r q interval m) (deltaTime : ℤ) :
    Measures r q interval (m.updateOutgoing r deltaTime) := by
  rw [NetManager.updateOutgoing]
  dsimp only
  split_ifs
  · apply Measures.disconnectPeerForce
    exact measures_setPeer h.pingInterval h.roundTrip
  · split
    · exact measures_setPeer h.pingInterval h.roundTrip
    · apply Measures.sendRaw
      exact measures_setPeer h.pingInterval h.roundTrip
  · exact measures_setPeer h.pingInterval h.roundTrip

theorem Measures.update (h : Measures r q interval m) (deltaTime : ℤ) :
    Measures r
      (if m.updatesConnected r deltaTime then
        (q.ping interval deltaTime m.highResolutionTimes.head).reset interval deltaTime
      else q) interval (m.update r deltaTime) := by
  have hclock : Measures r q interval (m.setPeer r { m.peerAt r with
      timeSinceLastPacket := wrapInt32 ((m.peerAt r).timeSinceLastPacket + deltaTime) }) :=
    measures_setPeer h.pingInterval h.roundTrip
  rw [NetManager.update, updatesConnected]
  dsimp only
  generalize hx : m.setPeer r { m.peerAt r with
    timeSinceLastPacket :=
      wrapInt32 ((m.peerAt r).timeSinceLastPacket + deltaTime) } = x at hclock ⊢
  have htimeout : x.disconnectTimeout = m.disconnectTimeout := by
    rw [← hx]
    rfl
  have htimes : x.highResolutionTimes = m.highResolutionTimes := by
    rw [← hx]
    rfl
  rw [htimeout, ← htimes]
  cases (m.peerAt r).connectionState with
  | connected =>
    by_cases hlate : m.disconnectTimeout <
        wrapInt32 ((m.peerAt r).timeSinceLastPacket + deltaTime)
    · rw [if_neg (by simpa using hlate)]
      dsimp only
      rw [if_pos hlate]
      exact hclock.disconnectPeerForce _ _ _
    · rw [if_pos (by simpa using hlate)]
      dsimp only
      rw [if_neg hlate]
      exact hclock.updateConnected deltaTime
  | shutdownRequested => exact hclock.updateShutdown deltaTime
  | outgoing => exact hclock.updateOutgoing deltaTime
  | disconnected => exact hclock

/-- `process_packet` measures a pong of the session with the number of the last ping. -/
def measuresPong (m : NetManager) (r : PeerRef) (packet : NetPacket) : Bool :=
  (m.peerAt r).isConnected && packet.connectionNumber = (m.peerAt r).connectNumber &&
    packet.sequence = (m.peerAt r).pingPacket.sequence

theorem Measures.processPong (h : Measures r q interval m) (packet : NetPacket) :
    Measures r
      (if packet.sequence = (m.peerAt r).pingPacket.sequence then
        q.pong m.highResolutionTimes.head
      else q) interval (m.processPong r packet) := by
  rw [NetManager.processPong]
  dsimp only
  split
  · obtain ⟨rfl, hinterval⟩ := h
    apply Measures.poolRecycle
    apply (servingKeeps_measures r _ interval).connectionLatencyUpdated
    apply measures_setPeer
    · exact hinterval
    · rfl
  · exact h.poolRecycle packet

theorem processPacket_pong {packet : NetPacket} (hpong : packet.property = .pong) :
    m.processPacket r packet =
      if (m.peerAt r).isConnected = true ∧ packet.connectionNumber = (m.peerAt r).connectNumber then
        (m.setPeer r { m.peerAt r with timeSinceLastPacket := 0 }).processPong r packet
      else m.poolRecycle packet := by
  rw [processPacket, processPacketTo, processPacketWith]
  simp only [hpong]
  cases (m.peerAt r).isConnected with
  | false => rfl
  | true =>
    by_cases hnumber : packet.connectionNumber = (m.peerAt r).connectNumber
    · simp [hnumber]
    · simp [hnumber]

theorem Measures.processPacket (h : Measures r q interval m) {packet : NetPacket}
    (hpong : packet.property = .pong) :
    Measures r
      (if m.measuresPong r packet then q.pong m.highResolutionTimes.head else q) interval
      (m.processPacket r packet) := by
  have hheard : Measures r q interval (m.setPeer r { m.peerAt r with timeSinceLastPacket := 0 }) :=
    measures_setPeer h.pingInterval h.roundTrip
  have hprocessed := hheard.processPong packet
  rw [setPeer_self] at hprocessed
  rw [processPacket_pong hpong, measuresPong]
  by_cases hsession : (m.peerAt r).isConnected = true ∧
      packet.connectionNumber = (m.peerAt r).connectNumber
  · rw [if_pos hsession]
    simp only [hsession, decide_true, Bool.and_self, Bool.true_and, decide_eq_true_eq]
    exact hprocessed
  · rw [if_neg hsession, if_neg (by simpa using fun hc hn => absurd ⟨hc, hn⟩ hsession)]
    exact h.poolRecycle packet

end Measures

/-- What measures the round trip of a peer. -/
inductive PingEvent where
  | update (deltaTime : ℤ)
  | pong (packet : NetPacket)

/-- `update_logic` passes at least one millisecond. -/
def PingEvent.Valid : PingEvent → Prop
  | .update deltaTime => 1 ≤ deltaTime
  | .pong packet => packet.property = .pong

def pingStep (m : NetManager) (r : PeerRef) : PingEvent → NetManager
  | .update deltaTime => m.update r deltaTime
  | .pong packet => m.processPacket r packet

/-- The step sends a ping. -/
def sendsPing (m : NetManager) (r : PeerRef) : PingEvent → Bool
  | .update deltaTime =>
    m.updatesConnected r deltaTime && m.pingInterval ≤ (m.peerAt r).pingSendTimer + deltaTime
  | .pong _ => false

/-- What the step passes to `update_roundtrip_time`. -/
def sampled (m : NetManager) (r : PeerRef) : PingEvent → List ℤ
  | .update deltaTime =>
    if m.sendsPing r (.update deltaTime) && (m.peerAt r).pingTimer.running then
      [(m.peerAt r).pingTimer.milliseconds m.highResolutionTimes.head]
    else []
  | .pong packet =>
    if m.measuresPong r packet then
      [((m.peerAt r).pingTimer.stop m.highResolutionTimes.head).milliseconds
        m.highResolutionTimes.head]
    else []

end NetManager

/-- A manager with the samples taken and the number of pings sent on the way to it. -/
structure PingTrace where
  manager : NetManager
  samples : List ℤ
  pings : ℕ

namespace PingTrace

def step (r : PeerRef) (t : PingTrace) (event : NetManager.PingEvent) : PingTrace where
  manager := t.manager.pingStep r event
  samples := t.samples ++ t.manager.sampled r event
  pings := t.pings + if t.manager.sendsPing r event then 1 else 0

def run (m : NetManager) (r : PeerRef) (events : List NetManager.PingEvent) : PingTrace :=
  events.foldl (step r) ⟨m, [], 0⟩

/-- The round trip of the peer is sound for what was sampled and sent. -/
structure Sound (r : PeerRef) (interval : ℤ) (t : PingTrace) : Prop where
  roundTrip : (t.manager.peerAt r).roundTrip.Sound interval t.samples t.pings
  pingInterval : t.manager.pingInterval = interval

section Run

variable {m : NetManager} {r : PeerRef} {interval bound : ℤ} {t : PingTrace}
  {event : NetManager.PingEvent} {events : List NetManager.PingEvent}

theorem run_concat (m : NetManager) (r : PeerRef) (events : List NetManager.PingEvent)
    (event : NetManager.PingEvent) : run m r (events ++ [event]) = (run m r events).step r event :=
  List.foldl_concat ..

theorem sampled_update (h : t.manager.pingInterval = interval) (deltaTime : ℤ) :
    t.manager.sampled r (.update deltaTime) =
      if t.manager.updatesConnected r deltaTime then
        (t.manager.peerAt r).roundTrip.pingSamples interval deltaTime
          t.manager.highResolutionTimes.head
      else [] := by
  rw [NetManager.sampled, NetManager.sendsPing, RoundTrip.pingSamples, h]
  cases t.manager.updatesConnected r deltaTime with
  | false => rfl
  | true =>
    rw [if_pos rfl]
    refine if_congr ?_ rfl rfl
    rw [Bool.true_and, Bool.and_eq_true, decide_eq_true_eq]
    rfl

theorem Sound.update (h : t.Sound r interval) {deltaTime : ℤ} (hdelta : 1 ≤ deltaTime)
    (hpos : ∀ s ∈ t.manager.sampled r (.update deltaTime), 0 ≤ s) :
    (t.step r (.update deltaTime)).Sound r interval := by
  obtain ⟨hsound, hinterval⟩ := h
  obtain ⟨hroundTrip, hinterval'⟩ := NetManager.Measures.update
    (⟨rfl, hinterval⟩ : t.manager.Measures r (t.manager.peerAt r).roundTrip interval) deltaTime
  refine ⟨?_, hinterval'⟩
  rw [sampled_update hinterval] at hpos
  rw [step, sampled_update hinterval, NetManager.sendsPing, hinterval]
  change ((t.manager.update r deltaTime).peerAt r).roundTrip.Sound interval _ _
  rw [hroundTrip]
  cases hconnected : t.manager.updatesConnected r deltaTime with
  | false =>
    simpa using hsound
  | true =>
    rw [hconnected] at hpos
    simp only [if_true, Bool.true_and, decide_eq_true_eq]
    exact hsound.update _ hdelta hpos

theorem Sound.pong (h : t.Sound r interval) {packet : NetPacket} (hpong : packet.property = .pong)
    (hpos : ∀ s ∈ t.manager.sampled r (.pong packet), 0 ≤ s)
    (hrunning : t.manager.measuresPong r packet = true →
      (t.manager.peerAt r).pingTimer.running = true) :
    (t.step r (.pong packet)).Sound r interval := by
  obtain ⟨hsound, hinterval⟩ := h
  obtain ⟨hroundTrip, hinterval'⟩ := NetManager.Measures.processPacket
    (⟨rfl, hinterval⟩ : t.manager.Measures r (t.manager.peerAt r).roundTrip interval) hpong
  refine ⟨?_, hinterval'⟩
  rw [NetManager.sampled] at hpos
  rw [step, NetManager.sampled]
  change ((t.manager.processPacket r packet).peerAt r).roundTrip.Sound interval _ (t.pings + 0)
  rw [hroundTrip]
  cases hmeasured : t.manager.measuresPong r packet with
  | false =>
    simpa using hsound
  | true =>
    rw [hmeasured] at hpos
    exact hsound.pong _ (hrunning hmeasured) (hpos _ List.mem_cons_self)

theorem Sound.step (h : t.Sound r interval) (hevent : event.Valid)
    (hpos : ∀ s ∈ t.manager.sampled r event, 0 ≤ s)
    (hrunning : ∀ packet, event = .pong packet → t.manager.measuresPong r packet = true →
      (t.manager.peerAt r).pingTimer.running = true) :
    (t.step r event).Sound r interval := by
  cases event with
  | update deltaTime => exact h.update hevent hpos
  | pong packet => exact h.pong hevent hpos (hrunning packet rfl)

end Run

end PingTrace

end LiteNet.Manager
