import LiteNet.Manager.SendFrame
import LiteNet.Manager.Update
import LiteNet.Wire.HandshakeRoundTrip

/-! # Which pings are answered

Pings are numbered modulo 65536 while the check for a newer ping is modulo 32768 with
the truncating remainder of C. After its first turn a ping counter is behind the
last answer for half of every turn.
-/

namespace LiteNet.Manager
open Library Wire Channels

/-- The number of the last of the first `k` pings that was answered. -/
def lastAnswered (k : ℕ) : ℕ :=
  if k < 65536 then k else if 32768 ≤ k % 65536 then k % 65536 else 65535

/-- The ping after the first `k` is newer than the last one answered in all turns' second halves,
and in the first turn. -/
theorem newer_ping_iff (k : ℕ) :
    0 < relativeSequenceNumber ((k + 1) % 65536 : ℕ) (lastAnswered k) ↔
      k + 1 < 65536 ∨ 32768 ≤ (k + 1) % 65536 := by
  have hhalf : (halfMaxSequence : ℤ) = 16384 := rfl
  rw [relativeSequenceNumber_eq, serialDistance_pos_iff (by rw [hhalf]; decide), hhalf]
  push_cast
  unfold lastAnswered
  split_ifs <;> omega

theorem lastAnswered_succ (k : ℕ) : lastAnswered (k + 1) =
    if k + 1 < 65536 ∨ 32768 ≤ (k + 1) % 65536 then (k + 1) % 65536 else lastAnswered k := by
  unfold lastAnswered
  split_ifs <;> omega

namespace NetManager

variable {a b : NetManager} {r s : PeerRef} {k : ℕ} {packet : NetPacket} {deltaTime : ℤ}

/-- An update that is due sends the ping with the next number. -/
structure Due (a : NetManager) (r : PeerRef) (deltaTime : ℤ) : Prop where
  connected : (a.peerAt r).connectionState = .connected
  interval : a.pingInterval ≤ (a.peerAt r).pingSendTimer + deltaTime

/-- The ping that a due update sends. -/
def nextPing (a : NetManager) (r : PeerRef) : NetPacket :=
  (a.peerAt r).pingPacket.setSequence (((a.peerAt r).pingPacket.sequence + 1) % 65536)

theorem updatePing_due (h : Due a r deltaTime) :
    ((a.updatePing r deltaTime).peerAt r).pingPacket = a.nextPing r ∧
      (a.updatePing r deltaTime).sent =
        a.sent ++ [⟨(a.peerAt r).endpoint, (a.nextPing r).wire⟩] := by
  rw [updatePing]
  dsimp only
  rw [if_pos h.interval]
  have hsend : ∀ (x : NetManager) (p : NetPeer), x.sent = a.sent → p.pingPacket = a.nextPing r →
      p.endpoint = (a.peerAt r).endpoint →
      (((x.setPeer r p).sendRaw p.pingPacket.wire p.endpoint).1.peerAt r).pingPacket =
          a.nextPing r ∧
        ((x.setPeer r p).sendRaw p.pingPacket.wire p.endpoint).1.sent =
          a.sent ++ [⟨(a.peerAt r).endpoint, (a.nextPing r).wire⟩] := by
    intro x p hx hp he
    obtain ⟨⟨state, hpeer⟩, hsent⟩ := sendRaw_frame (x.setPeer r p) p.pingPacket.wire p.endpoint r
    rw [hpeer, hsent, setPeer_self, ← hx, ← hp, ← he]
    exact ⟨rfl, rfl⟩
  apply hsend
  · rfl
  · split <;> rfl
  · split <;> rfl

/-- The remote peer answers with a pong of the same number. -/
def Answers (b b' : NetManager) (s : PeerRef) (number : ℕ) : Prop :=
  ∃ pong : NetPacket, b'.sent = b.sent ++ [⟨(b.peerAt s).endpoint, pong.wire⟩] ∧
    pong.property = .pong ∧ pong.sequence = number

theorem processPacket_ping (connected : (b.peerAt s).connectionState = .connected)
    (number : packet.connectionNumber = (b.peerAt s).connectNumber)
    (ping : packet.property = .ping) : 
    b.processPacket s packet =
      (b.setPeer s { b.peerAt s with timeSinceLastPacket := 0 }).processPing s packet := by
  have hc : (b.peerAt s).isConnected = true := by
    rw [NetPeer.isConnected, connected]
    rfl
  rw [processPacket, processPacketTo, processPacketWith]
  simp only [hc, ping, number]
  rw [if_neg (by decide), if_neg (by decide), if_neg (not_not.mpr rfl)]

/-- The pong that a newer ping is answered with. -/
def nextPong (b : NetManager) (s : PeerRef) (packet : NetPacket) : NetPacket :=
  ((b.peerAt s).pongPacket.setInt64 b.getCurrentTime.1 3).setSequence packet.sequence

theorem processPing_sent
    (h : 0 < relativeSequenceNumber packet.sequence (b.peerAt s).pongPacket.sequence) :
    (b.processPing s packet).sent =
        b.sent ++ [⟨(b.peerAt s).endpoint, (b.nextPong s packet).wire⟩] ∧
      ((b.processPing s packet).peerAt s).pongPacket = b.nextPong s packet := by
  have hanswers : b.processPing s packet =
      ((b.getCurrentTime.2.setPeer s { b.peerAt s with pongPacket := b.nextPong s packet }).sendRaw
        (b.nextPong s packet).wire (b.peerAt s).endpoint).1.poolRecycle packet := by
    rw [processPing]
    exact if_pos h
  rw [hanswers]
  generalize b.nextPong s packet = answer
  generalize hx : b.getCurrentTime.2.setPeer s { b.peerAt s with pongPacket := answer } = x
  have hsent : x.sent = b.sent := by
    rw [← hx]
    rfl
  have hpong : (x.peerAt s).pongPacket = answer := by
    rw [← hx, setPeer_self]
  obtain ⟨⟨state, hpeer⟩, hlog⟩ := x.sendRaw_frame answer.wire (b.peerAt s).endpoint s
  obtain ⟨hrecycle, hrecycleSent, -⟩ :=
    (x.sendRaw answer.wire (b.peerAt s).endpoint).1.poolRecycle_frame packet
  rw [hrecycleSent, hlog, hsent, hrecycle, hpeer]
  exact ⟨rfl, hpong⟩

/-- A ping that is newer than the last one answered is answered. -/
theorem processPing_newer (pong : (b.peerAt s).pongPacket.property = .pong)
    (h : 0 < relativeSequenceNumber packet.sequence (b.peerAt s).pongPacket.sequence) :
    Answers b (b.processPing s packet) s packet.sequence ∧
      ((b.processPing s packet).peerAt s).pongPacket.property = .pong ∧
      ((b.processPing s packet).peerAt s).pongPacket.sequence = packet.sequence := by
  have hproperty : (b.nextPong s packet).property = .pong := by
    rw [nextPong, NetPacket.property_setSequence, NetPacket.setInt64, NetPacket.setValueAt,
      NetPacket.property_write _ _ _ (by decide), pong]
  have hsequence : (b.nextPong s packet).sequence = packet.sequence := by
    rw [nextPong, NetPacket.sequence_setSequence, Nat.mod_eq_of_lt packet.sequence_lt]
  obtain ⟨hsent, hpong⟩ := processPing_sent h
  rw [hpong]
  exact ⟨⟨_, hsent, hproperty, hsequence⟩, hproperty, hsequence⟩

theorem processPing_older
    (h : ¬ 0 < relativeSequenceNumber packet.sequence (b.peerAt s).pongPacket.sequence) :
    (b.processPing s packet).sent = b.sent ∧ (b.processPing s packet).peerAt = b.peerAt := by
  rw [processPing]
  dsimp only
  rw [if_neg h]
  obtain ⟨hpeer, hsent, -⟩ := b.poolRecycle_frame packet
  exact ⟨hsent, hpeer⟩

/-- The first `k` pings of one peer have reached the other, in order and once each. In between
anything may happen to the two managers that leaves the ping and the pong packet to `update` and
`process_packet`. -/
inductive Pinged (r s : PeerRef) : ℕ → NetManager → NetManager → Prop
  | start {a b : NetManager} (ping : (a.peerAt r).pingPacket = .new .ping 0 (by decide))
      (pong : (b.peerAt s).pongPacket = .new .pong 0 (by decide)) : Pinged r s 0 a b
  | other {k : ℕ} {a b a' b' : NetManager} (run : Pinged r s k a b)
      (ping : (a'.peerAt r).pingPacket = (a.peerAt r).pingPacket)
      (pong : (b'.peerAt s).pongPacket = (b.peerAt s).pongPacket) : Pinged r s k a' b'
  | ping {k : ℕ} {a b : NetManager} {deltaTime : ℤ} {packet : NetPacket} (run : Pinged r s k a b)
      (due : Due a r deltaTime) (arrives : packet.wire = (a.nextPing r).wire)
      (connected : (b.peerAt s).connectionState = .connected)
      (number : packet.connectionNumber = (b.peerAt s).connectNumber) :
      Pinged r s (k + 1) (a.updatePing r deltaTime) (b.processPacket s packet)

/-- The two packets after `k` pings. -/
structure Counts (k : ℕ) (ping pong : NetPacket) : Prop where
  isPing : ping.property = .ping
  pingSize : 3 ≤ ping.size
  pingSequence : ping.sequence = k % 65536
  isPong : pong.property = .pong
  pongSequence : pong.sequence = lastAnswered k

theorem Counts.step (h : Counts k (a.peerAt r).pingPacket (b.peerAt s).pongPacket)
    (arrives : packet.wire = (a.nextPing r).wire)
    (connected : (b.peerAt s).connectionState = .connected)
    (number : packet.connectionNumber = (b.peerAt s).connectNumber) :
    Counts (k + 1) (a.nextPing r) ((b.processPacket s packet).peerAt s).pongPacket ∧
      (Answers b (b.processPacket s packet) s ((k + 1) % 65536) ↔
        k + 1 < 65536 ∨ 32768 ≤ (k + 1) % 65536) := by
  have hnext : (a.nextPing r).sequence = (k + 1) % 65536 := by
    rw [nextPing, NetPacket.sequence_setSequence, h.pingSequence]
    omega
  have hping : (a.nextPing r).property = .ping := by
    rw [nextPing, NetPacket.property_setSequence, h.isPing]
  have hsize : 3 ≤ (a.nextPing r).size := h.pingSize
  have hsequence : packet.sequence = (k + 1) % 65536 := by
    rw [← hnext]
    exact NetPacket.getValueAt_of_wire arrives hsize
  have hproperty : packet.property = .ping := by
    rw [← hping, NetPacket.property, NetPacket.propertyCode,
      NetPacket.byte_of_wire arrives (by omega), NetPacket.property, NetPacket.propertyCode]
  rw [processPacket_ping connected number hproperty]
  generalize hx : b.setPeer s { b.peerAt s with timeSinceLastPacket := 0 } = x
  have hpong : (x.peerAt s).pongPacket = (b.peerAt s).pongPacket := by
    rw [← hx, setPeer_self]
  have hanswers : ∀ y number, Answers x y s number ↔ Answers b y s number := by
    intro y number
    rw [Answers, Answers, ← hx, setPeer_self]
    rfl
  have hnewer := newer_ping_iff k
  rw [← hsequence, ← h.pongSequence, ← hpong] at hnewer
  rw [← hanswers, ← hsequence]
  by_cases hn : 0 < relativeSequenceNumber packet.sequence (x.peerAt s).pongPacket.sequence
  · obtain ⟨hanswer, hkind, hlast⟩ := processPing_newer (by rw [hpong, h.isPong]) hn
    refine ⟨⟨hping, hsize, hnext, hkind, ?_⟩, ⟨fun _ => hnewer.mp hn, fun _ => hanswer⟩⟩
    rw [hlast, lastAnswered_succ, if_pos (hsequence ▸ hnewer.mp hn), hsequence]
  · obtain ⟨hsent, hpeer⟩ := processPing_older hn
    refine ⟨⟨hping, hsize, hnext, ?_, ?_⟩, ⟨?_, fun hk => absurd (hnewer.mpr hk) hn⟩⟩
    · rw [hpeer, hpong, h.isPong]
    · rw [hpeer, hpong, h.pongSequence, lastAnswered_succ,
        if_neg (hsequence ▸ fun hk => hn (hnewer.mpr hk))]
    · rintro ⟨pong, hlog, -⟩
      rw [hsent] at hlog
      simp at hlog

theorem Pinged.counts (h : Pinged r s k a b) :
    Counts k (a.peerAt r).pingPacket (b.peerAt s).pongPacket := by
  induction h with
  | start ping pong =>
    rw [ping, pong]
    exact ⟨by simp [NetPacket.new], by decide, by decide, by simp [NetPacket.new], by decide⟩
  | other run hping hpong ih =>
    rw [hping, hpong]
    exact ih
  | ping run due arrives connected number ih =>
    rw [(updatePing_due due).1]
    exact (ih.step arrives connected number).1

/-- A manager that keeps its connected peer. -/
def pingHost : NetManager := .new (.const 0) (.const 0) (.const .ok)

/-- The settings and the peer of a host that goes on pinging or answering. -/
structure Steady (m : NetManager) : Prop where
  unreachable : m.disconnectOnUnreachable = false
  interval : m.pingInterval = 1000
  connected : (m.peerAt 0).connectionState = .connected
  number : (m.peerAt 0).connectNumber = 0
  timer : 0 ≤ (m.peerAt 0).pingSendTimer
  ping : (m.peerAt 0).pingPacket.connectionNumber = 0

theorem Steady.setPeer {m x : NetManager} {p : NetPeer} (h : Steady m)
    (unreachable : x.disconnectOnUnreachable = m.disconnectOnUnreachable)
    (interval : x.pingInterval = m.pingInterval)
    (connected : p.connectionState = (m.peerAt 0).connectionState)
    (number : p.connectNumber = (m.peerAt 0).connectNumber) (timer : 0 ≤ p.pingSendTimer)
    (ping : p.pingPacket.connectionNumber = (m.peerAt 0).pingPacket.connectionNumber) :
    Steady (x.setPeer 0 p) := by
  refine ⟨?_, ?_, ?_, ?_, ?_, ?_⟩
  · exact unreachable.trans h.unreachable
  · exact interval.trans h.interval
  · rw [setPeer_self, connected, h.connected]
  · rw [setPeer_self, number, h.number]
  · rw [setPeer_self]
    exact timer
  · rw [setPeer_self, ping, h.ping]

theorem Steady.sendRaw {m : NetManager} (h : Steady m) (bytes : Bytes) (endpoint : NetAddress) :
    Steady (m.sendRaw bytes endpoint).1 := by
  obtain ⟨hpeer, hunreachable, hinterval⟩ := sendRaw_steady h.unreachable bytes endpoint
  exact ⟨hunreachable, hinterval.trans h.interval, by rw [hpeer, h.connected],
    by rw [hpeer, h.number], by rw [hpeer]; exact h.timer, by rw [hpeer, h.ping]⟩

theorem Steady.poolRecycle {m : NetManager} (h : Steady m) (packet : NetPacket) :
    Steady (m.poolRecycle packet) := by
  rw [NetManager.poolRecycle]
  split
  · exact h
  · exact ⟨h.unreachable, h.interval, h.connected, h.number, h.timer, h.ping⟩

theorem Steady.due {m : NetManager} (h : Steady m) : Due m 0 1000 :=
  ⟨h.connected, by have := h.timer; rw [h.interval]; omega⟩

theorem Steady.updatePing {m : NetManager} (h : Steady m) : Steady (m.updatePing 0 1000) := by
  rw [NetManager.updatePing]
  dsimp only
  rw [if_pos h.due.interval]
  apply Steady.sendRaw
  apply h.setPeer
  · rfl
  · rfl
  · split <;> rfl
  · split <;> rfl
  · split <;> exact le_rfl
  · have hnumber : (m.nextPing 0).connectionNumber = (m.peerAt 0).pingPacket.connectionNumber :=
      NetPacket.connectionNumber_write _ _ _ (by decide)
    split <;> exact hnumber

theorem Steady.processPing {m : NetManager} (h : Steady m) (packet : NetPacket) :
    Steady (m.processPing 0 packet) := by
  rw [NetManager.processPing]
  dsimp only
  split
  · apply Steady.poolRecycle
    apply Steady.sendRaw
    apply h.setPeer
    · rfl
    · rfl
    · rfl
    · rfl
    · exact h.timer
    · rfl
  · exact h.poolRecycle packet

/-- Two hosts after `k` pings of the first that reached the second. -/
def pingHosts : ℕ → NetManager × NetManager
  | 0 => (pingHost, pingHost)
  | k + 1 => ((pingHosts k).1.updatePing 0 1000,
      (pingHosts k).2.processPacket 0 ((pingHosts k).1.nextPing 0))

/-- The next ping has the number of the connection that it arrives at. -/
theorem Steady.nextPing_number {m x : NetManager} (hm : Steady m) (hx : Steady x) :
    (m.nextPing 0).connectionNumber = (x.peerAt 0).connectNumber := by
  rw [hx.number, ← hm.ping]
  exact NetPacket.connectionNumber_write _ _ _ (by decide)

theorem pingHosts_pinged (k : ℕ) : Pinged 0 0 k (pingHosts k).1 (pingHosts k).2 ∧
    Steady (pingHosts k).1 ∧ Steady (pingHosts k).2 := by
  induction k with
  | zero =>
    have hsteady : Steady pingHost := ⟨rfl, rfl, rfl, rfl, le_rfl, by decide⟩
    exact ⟨.start rfl rfl, hsteady, hsteady⟩
  | succ k ih =>
    rw [pingHosts]
    obtain ⟨hrun, ha, hb⟩ := ih
    generalize pingHosts k = hosts at hrun ha hb
    have hping : (hosts.1.nextPing 0).property = .ping := by
      rw [nextPing, NetPacket.property_setSequence, hrun.counts.isPing]
    refine ⟨.ping hrun ha.due rfl hb.connected (ha.nextPing_number hb), ha.updatePing, ?_⟩
    rw [processPacket_ping hb.connected (ha.nextPing_number hb) hping]
    apply Steady.processPing
    apply hb.setPeer
    · rfl
    · rfl
    · rfl
    · rfl
    · exact hb.timer
    · rfl

/-- In every run the ping with number `k + 1` is answered exactly in the first turn of the counter
and in the second half of every later one. -/
theorem ping_answered_iff (run : Pinged r s k a b) (due : Due a r deltaTime)
    (arrives : packet.wire = (a.nextPing r).wire)
    (connected : (b.peerAt s).connectionState = .connected)
    (number : packet.connectionNumber = (b.peerAt s).connectNumber) :
    (a.updatePing r deltaTime).sent = a.sent ++ [⟨(a.peerAt r).endpoint, (a.nextPing r).wire⟩] ∧
      (Answers b (b.processPacket s packet) s packet.sequence ↔
        k + 1 < 65536 ∨ 32768 ≤ (k + 1) % 65536) := by
  have hstep := run.counts.step arrives connected number
  have hsequence : packet.sequence = (k + 1) % 65536 := by
    rw [← hstep.1.pingSequence]
    exact NetPacket.getValueAt_of_wire arrives hstep.1.pingSize
  rw [hsequence]
  exact ⟨(updatePing_due due).2, hstep.2⟩

/-- The pings after the unanswered ones are answered again. -/
theorem ping_answered_iff_pingHosts :
    ((pingHosts 98303).1.updatePing 0 1000).sent = (pingHosts 98303).1.sent ++
        [⟨((pingHosts 98303).1.peerAt 0).endpoint, ((pingHosts 98303).1.nextPing 0).wire⟩] ∧
      (Answers (pingHosts 98303).2
          ((pingHosts 98303).2.processPacket 0 ((pingHosts 98303).1.nextPing 0)) 0
            ((pingHosts 98303).1.nextPing 0).sequence ↔
        98303 + 1 < 65536 ∨ 32768 ≤ (98303 + 1) % 65536) :=
  ping_answered_iff (pingHosts_pinged 98303).1 (pingHosts_pinged 98303).2.1.due rfl
    (pingHosts_pinged 98303).2.2.connected
    ((pingHosts_pinged 98303).2.1.nextPing_number (pingHosts_pinged 98303).2.2)

/-- The ping after the first 65535 is not answered. -/
theorem not_every_ping_answered :
    ¬ ∀ (k : ℕ) (a b : NetManager) (packet : NetPacket), Pinged 0 0 k a b → Due a 0 1000 →
      packet.wire = (a.nextPing 0).wire → (b.peerAt 0).connectionState = .connected →
      packet.connectionNumber = (b.peerAt 0).connectNumber →
      Answers b (b.processPacket 0 packet) 0 packet.sequence := by
  intro h
  obtain ⟨hrun, ha, hb⟩ := pingHosts_pinged 65535
  generalize (pingHosts 65535).1 = a, (pingHosts 65535).2 = b at hrun ha hb
  have hnumber := ha.nextPing_number hb
  have hanswers := h 65535 a b (a.nextPing 0) hrun ha.due rfl hb.connected hnumber
  have hstep := @Counts.step a b 0 0 _ (a.nextPing 0) hrun.counts rfl hb.connected hnumber
  have hsequence : (a.nextPing 0).sequence = (65535 + 1) % 65536 := hstep.1.pingSequence
  rw [hsequence] at hanswers
  exact absurd (hstep.2.mp hanswers) (by decide)

end NetManager

end LiteNet.Manager
