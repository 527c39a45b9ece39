import LiteNet.Manager.SendFrame
import LiteNet.Manager.Update
import LiteNet.Wire.Header

/-! # MTU discovery

The index into the table of MTUs, the MTU and the finish flag are changed by checks
that are sent, by received answers and by a reset. The functions are repeated with
every read of the next table entry checked, and agree with the unchecked ones in
every state that can be reached.
-/

namespace LiteNet.Manager
open Library Wire Channels

/-- The MTU of a peer is the entry of the table at its index. -/
structure NetPeer.MtuInTable (p : NetPeer) : Prop where
  idx_lt : p.mtuIdx < possibleMtu.length
  mtu_eq : p.mtu = possibleMtu.getD p.mtuIdx 0

theorem NetPeer.resetMtu_inTable (p : NetPeer) : p.resetMtu.MtuInTable :=
  ⟨show 0 < possibleMtu.length by decide, rfl⟩

theorem getElem?_possibleMtu {i : ℕ} (h : i < possibleMtu.length) :
    possibleMtu[i]? = some (possibleMtu.getD i 0) := by
  rw [List.getD_eq_getElem?_getD, List.getElem?_eq_getElem h, Option.getD_some]

/-- Only the last entry of the table is the largest packet. -/
theorem succ_lt_of_mtu_lt {i : ℕ} (hi : i < possibleMtu.length)
    (h : possibleMtu.getD i 0 < maxPacketSize) : i + 1 < possibleMtu.length := by
  revert h hi
  have hlength : possibleMtu.length = 7 := rfl
  rw [hlength]
  intro hi
  interval_cases i <;> decide

theorem mtu_lt_succ {i : ℕ} (hi : i + 1 < possibleMtu.length) :
    possibleMtu.getD i 0 < possibleMtu.getD (i + 1) 0 ∧ 4 < possibleMtu.getD (i + 1) 0 := by
  have hlength : possibleMtu.length = 7 := rfl
  rw [hlength] at hi
  have hi : i < 6 := by omega
  interval_cases i <;> decide

theorem first_mtu_le {i : ℕ} (hi : i < possibleMtu.length) :
    possibleMtu.getD 0 0 ≤ possibleMtu.getD i 0 := by
  have hlength : possibleMtu.length = 7 := rfl
  rw [hlength] at hi
  interval_cases i <;> decide

namespace NetManager

/-- `process_mtu_packet` with a checked read of the next table entry. -/
def processMtuPacketChecked (m : NetManager) (r : PeerRef) (packet : NetPacket) :
    Option NetManager :=
  let p := m.peerAt r
  if packet.size < possibleMtu.getD 0 0 then some (m.poolRecycle packet)
  else
    let receivedMtu := (packet.getInt32 1).toInt
    let endMtuCheck := (packet.getInt32 (packet.size - 4)).toInt
    if receivedMtu ≠ packet.size ∨ receivedMtu ≠ endMtuCheck ∨ (maxPacketSize : ℤ) < receivedMtu then
      some (m.poolRecycle packet)
    else if packet.property = .mtuCheck then
      let m := m.setPeer r { p with mtuCheckAttempts := 0 }
      some (m.sendRawAndRecycle (packet.setProperty .mtuOk) p.endpoint).1
    else if receivedMtu ≤ p.mtu ∨ p.finishMtu then some (m.poolRecycle packet)
    else
      match possibleMtu[p.mtuIdx + 1]? with
      | none => none
      | some nextMtu =>
        if receivedMtu ≠ (nextMtu : ℕ) then some (m.poolRecycle packet)
        else
          let p := { p with mtuIdx := p.mtuIdx + 1, mtu := nextMtu }
          let p := if p.mtuIdx = possibleMtu.length - 1 then { p with finishMtu := true } else p
          some ((m.setPeer r p).poolRecycle packet)

/-- `update_mtu_logic` with a checked read of the next table entry. -/
def updateMtuLogicChecked (m : NetManager) (r : PeerRef) (deltaTime : ℤ) : Option NetManager :=
  let p := m.peerAt r
  if p.finishMtu then some m
  else
    let p := { p with mtuCheckTimer := p.mtuCheckTimer + deltaTime }
    if p.mtuCheckTimer < mtuCheckDelay then some (m.setPeer r p)
    else
      let p := { p with mtuCheckTimer := 0, mtuCheckAttempts := p.mtuCheckAttempts + 1 }
      if maxMtuCheckAttempts ≤ p.mtuCheckAttempts then some (m.setPeer r { p with finishMtu := true })
      else if possibleMtu.length - 1 ≤ p.mtuIdx then some (m.setPeer r p)
      else
        match possibleMtu[p.mtuIdx + 1]? with
        | none => none
        | some newMtu =>
          let sent := (m.setPeer r p).sendMtuCheck newMtu p.endpoint
          if sent.2 ≤ 0 then some (sent.1.setPeer r { sent.1.peerAt r with finishMtu := true })
          else some sent.1

/-- What moves the MTU of a peer. -/
inductive MtuEvent where
  | update (deltaTime : ℤ)
  | receive (packet : NetPacket)
  | reset

/-- `process_packet` hands on these two kinds, and only of packets that passed `verify`. -/
def MtuEvent.Valid : MtuEvent → Prop
  | .receive packet => packet.verify = true ∧ (packet.property = .mtuCheck ∨ packet.property = .mtuOk)
  | _ => True

def mtuStep (m : NetManager) (r : PeerRef) : MtuEvent → NetManager
  | .update deltaTime => m.updateMtuLogic r deltaTime
  | .receive packet => m.processMtuPacket r packet
  | .reset => m.setPeer r (m.peerAt r).resetMtu

def mtuStepChecked (m : NetManager) (r : PeerRef) : MtuEvent → Option NetManager
  | .update deltaTime => m.updateMtuLogicChecked r deltaTime
  | .receive packet => m.processMtuPacketChecked r packet
  | .reset => some (m.setPeer r (m.peerAt r).resetMtu)

def runMtu (m : NetManager) (r : PeerRef) (events : List MtuEvent) : NetManager :=
  events.foldl (fun m event => m.mtuStep r event) m

/-- The size of a packet is what both of its length fields say. -/
def SelfSized (packet : NetPacket) : Prop :=
  (packet.getInt32 1).toInt = packet.size ∧
    (packet.getInt32 (packet.size - 4)).toInt = packet.size

/-- What one step does to the MTU, and what it answers. -/
structure MtuStepSpec (m : NetManager) (r : PeerRef) (event : MtuEvent) (m' : NetManager) :
    Prop where
  inTable : (m'.peerAt r).MtuInTable
  inRange : m.mtuStepChecked r event = some m'
  grows : (m.peerAt r).mtu < (m'.peerAt r).mtu → ∃ packet, event = .receive packet ∧
    packet.property = .mtuOk ∧ (m'.peerAt r).mtuIdx = (m.peerAt r).mtuIdx + 1 ∧
    packet.size = (m'.peerAt r).mtu ∧ SelfSized packet
  echoes : ∃ ds, m'.sent = m.sent ++ ds ∧ ∀ d ∈ ds, headerProperty d.bytes = .mtuOk →
    ∃ packet, event = .receive packet ∧ packet.property = .mtuCheck ∧ SelfSized packet ∧
      d.bytes.length = packet.size ∧ d.bytes.drop 1 = packet.wire.drop 1

section Steps

variable {m m' : NetManager} {r : PeerRef} {packet : NetPacket} {event : MtuEvent}

/-- A size that is above the MTU and fits a packet leaves a next entry. -/
theorem succ_lt_of_received (h : (m.peerAt r).MtuInTable) {received : ℤ}
    (hmax : ¬ (maxPacketSize : ℤ) < received) (hmtu : ¬ received ≤ (m.peerAt r).mtu) :
    (m.peerAt r).mtuIdx + 1 < possibleMtu.length := by
  apply succ_lt_of_mtu_lt h.idx_lt
  rw [← h.mtu_eq]
  omega

theorem processMtuPacketChecked_eq (h : (m.peerAt r).MtuInTable) (packet : NetPacket) :
    m.processMtuPacketChecked r packet = some (m.processMtuPacket r packet) := by
  rw [processMtuPacketChecked, processMtuPacket]
  dsimp only
  by_cases hsmall : packet.size < possibleMtu.getD 0 0
  · rw [if_pos hsmall, if_pos hsmall]
  rw [if_neg hsmall, if_neg hsmall]
  by_cases hfields : (packet.getInt32 1).toInt ≠ packet.size ∨
      (packet.getInt32 1).toInt ≠ (packet.getInt32 (packet.size - 4)).toInt ∨
      (maxPacketSize : ℤ) < (packet.getInt32 1).toInt
  · rw [if_pos hfields, if_pos hfields]
  rw [if_neg hfields, if_neg hfields]
  by_cases hcheck : packet.property = .mtuCheck
  · rw [if_pos hcheck, if_pos hcheck]
  rw [if_neg hcheck, if_neg hcheck]
  by_cases hdone : (packet.getInt32 1).toInt ≤ (m.peerAt r).mtu ∨ (m.peerAt r).finishMtu = true
  · rw [if_pos hdone, if_pos hdone]
  rw [if_neg hdone, if_neg hdone]
  have hnext : (m.peerAt r).mtuIdx + 1 < possibleMtu.length :=
    succ_lt_of_received h (not_or.mp (not_or.mp hfields).2).2 (not_or.mp hdone).1
  rw [getElem?_possibleMtu hnext]
  dsimp only
  split <;> rfl

theorem updateMtuLogicChecked_eq (m : NetManager) (r : PeerRef) (deltaTime : ℤ) :
    m.updateMtuLogicChecked r deltaTime = some (m.updateMtuLogic r deltaTime) := by
  rw [updateMtuLogicChecked, updateMtuLogic]
  dsimp only
  by_cases hfinish : (m.peerAt r).finishMtu = true
  · rw [if_pos hfinish, if_pos hfinish]
  rw [if_neg hfinish, if_neg hfinish]
  by_cases hearly : (m.peerAt r).mtuCheckTimer + deltaTime < mtuCheckDelay
  · rw [if_pos hearly, if_pos hearly]
  rw [if_neg hearly, if_neg hearly]
  by_cases hattempts : maxMtuCheckAttempts ≤ (m.peerAt r).mtuCheckAttempts + 1
  · rw [if_pos hattempts, if_pos hattempts]
  rw [if_neg hattempts, if_neg hattempts]
  by_cases hlast : possibleMtu.length - 1 ≤ (m.peerAt r).mtuIdx
  · rw [if_pos hlast, if_pos hlast]
  rw [if_neg hlast, if_neg hlast, getElem?_possibleMtu (by omega)]
  dsimp only
  split <;> rfl

structure SameMtu (p p' : NetPeer) : Prop where
  idx : p'.mtuIdx = p.mtuIdx
  mtu : p'.mtu = p.mtu

/-- A step that leaves index and MTU alone and sends nothing that looks like an answer. -/
theorem MtuStepSpec.unchanged (h : (m.peerAt r).MtuInTable)
    (idx : (m'.peerAt r).mtuIdx = (m.peerAt r).mtuIdx) (mtu : (m'.peerAt r).mtu = (m.peerAt r).mtu)
    (inRange : m.mtuStepChecked r event = some m')
    (quiet : ∃ ds, m'.sent = m.sent ++ ds ∧ ∀ d ∈ ds, headerProperty d.bytes ≠ .mtuOk) :
    MtuStepSpec m r event m' where
  inTable := ⟨idx ▸ h.idx_lt, by rw [mtu, idx, h.mtu_eq]⟩
  inRange := inRange
  grows := fun hlt => absurd (mtu ▸ hlt) (lt_irrefl _)
  echoes := by
    obtain ⟨ds, hsent, hquiet⟩ := quiet
    exact ⟨ds, hsent, fun d hd hok => absurd hok (hquiet d hd)⟩

theorem sendMtuCheck_spec (m : NetManager) {newMtu : ℕ} (h : 4 < newMtu) (endpoint : NetAddress)
    (r : PeerRef) :
    SameButState (m.peerAt r) ((m.sendMtuCheck newMtu endpoint).1.peerAt r) ∧
      ∃ d, (m.sendMtuCheck newMtu endpoint).1.sent = m.sent ++ [d] ∧
        headerProperty d.bytes = .mtuCheck := by
  rw [sendMtuCheck]
  obtain ⟨hpeer, hsent, hsize⟩ := m.poolGetPacket_frame newMtu
  generalize hpacket : (((m.poolGetPacket newMtu).1.setProperty .mtuCheck).setValueAt newMtu 1
    4).setValueAt newMtu ((((m.poolGetPacket newMtu).1.setProperty .mtuCheck).setValueAt newMtu 1
    4).size - 4) 4 = packet
  obtain ⟨hstate, hlog⟩ := (m.poolGetPacket newMtu).2.sendRawAndRecycle_frame packet endpoint r
  have hpacketSize : packet.size = newMtu := by
    rw [← hpacket]
    exact hsize
  have hproperty : packet.property = .mtuCheck := by
    have hend : 0 < (((m.poolGetPacket newMtu).1.setProperty .mtuCheck).setValueAt newMtu 1
        4).size - 4 := by
      change 0 < (m.poolGetPacket newMtu).1.size - 4
      omega
    rw [← hpacket, NetPacket.setValueAt, NetPacket.property_write _ _ _ hend, NetPacket.setValueAt,
      NetPacket.property_write _ _ _ one_pos, NetPacket.property_setProperty]
  rw [← hpeer]
  refine ⟨hstate, ⟨endpoint, packet.wire⟩, ?_, ?_⟩
  · rw [hlog, hsent]
  · rw [packet.headerProperty_wire (by omega), hproperty]

/-- The end of `update_mtu_logic`. -/
def sendCheck (m : NetManager) (r : PeerRef) (p : NetPeer) (newMtu : ℕ) : NetManager :=
  if ((m.setPeer r p).sendMtuCheck newMtu p.endpoint).2 ≤ 0 then
    ((m.setPeer r p).sendMtuCheck newMtu p.endpoint).1.setPeer r
      { ((m.setPeer r p).sendMtuCheck newMtu p.endpoint).1.peerAt r with finishMtu := true }
  else ((m.setPeer r p).sendMtuCheck newMtu p.endpoint).1

theorem sendCheck_spec {p : NetPeer} (hsame : SameMtu (m.peerAt r) p) {newMtu : ℕ}
    (hnew : 4 < newMtu) :
    SameMtu (m.peerAt r) ((m.sendCheck r p newMtu).peerAt r) ∧
      ∃ ds, (m.sendCheck r p newMtu).sent = m.sent ++ ds ∧
        ∀ d ∈ ds, headerProperty d.bytes ≠ .mtuOk := by
  obtain ⟨⟨state, hpeer⟩, d, hsent, hproperty⟩ :=
    (m.setPeer r p).sendMtuCheck_spec hnew p.endpoint r
  have hbase : (m.setPeer r p).sent = m.sent := rfl
  rw [setPeer_self] at hpeer
  rw [hbase] at hsent
  have hlog : ∀ d' ∈ [d], headerProperty d'.bytes ≠ .mtuOk := by
    intro d' hd'
    rw [List.mem_singleton.mp hd', hproperty]
    decide
  rw [sendCheck]
  generalize (m.setPeer r p).sendMtuCheck newMtu p.endpoint = sent at hpeer hsent ⊢
  split
  · rw [setPeer_self, hpeer]
    exact ⟨⟨hsame.idx, hsame.mtu⟩, [d], hsent, hlog⟩
  · rw [hpeer]
    exact ⟨⟨hsame.idx, hsame.mtu⟩, [d], hsent, hlog⟩

theorem updateMtuLogic_cases (m : NetManager) (r : PeerRef) (deltaTime : ℤ) :
    m.updateMtuLogic r deltaTime = m ∨
      (∃ p, SameMtu (m.peerAt r) p ∧ m.updateMtuLogic r deltaTime = m.setPeer r p) ∨
      ∃ p newMtu, SameMtu (m.peerAt r) p ∧ 4 < newMtu ∧
        m.updateMtuLogic r deltaTime = m.sendCheck r p newMtu := by
  rw [updateMtuLogic]
  dsimp only
  by_cases hfinish : (m.peerAt r).finishMtu = true
  · exact .inl (if_pos hfinish)
  rw [if_neg hfinish]
  refine .inr ?_
  by_cases hearly : (m.peerAt r).mtuCheckTimer + deltaTime < mtuCheckDelay
  · refine .inl ⟨_, ?_, if_pos hearly⟩
    exact ⟨rfl, rfl⟩
  rw [if_neg hearly]
  by_cases hattempts : maxMtuCheckAttempts ≤ (m.peerAt r).mtuCheckAttempts + 1
  · refine .inl ⟨_, ?_, if_pos hattempts⟩
    exact ⟨rfl, rfl⟩
  rw [if_neg hattempts]
  by_cases hlast : possibleMtu.length - 1 ≤ (m.peerAt r).mtuIdx
  · refine .inl ⟨_, ?_, if_pos hlast⟩
    exact ⟨rfl, rfl⟩
  rw [if_neg hlast]
  have hnew := (mtu_lt_succ (show (m.peerAt r).mtuIdx + 1 < possibleMtu.length by omega)).2
  generalize possibleMtu.getD ((m.peerAt r).mtuIdx + 1) 0 = newMtu at hnew ⊢
  refine .inr ⟨{ m.peerAt r with
    mtuCheckTimer := 0
    mtuCheckAttempts := (m.peerAt r).mtuCheckAttempts + 1 }, newMtu, ⟨rfl, rfl⟩, hnew, ?_⟩
  rw [sendCheck]

theorem updateMtuLogic_spec (h : (m.peerAt r).MtuInTable) (deltaTime : ℤ) :
    MtuStepSpec m r (.update deltaTime) (m.updateMtuLogic r deltaTime) := by
  suffices hcase : SameMtu (m.peerAt r) ((m.updateMtuLogic r deltaTime).peerAt r) ∧
      ∃ ds, (m.updateMtuLogic r deltaTime).sent = m.sent ++ ds ∧
        ∀ d ∈ ds, headerProperty d.bytes ≠ .mtuOk from
    .unchanged h hcase.1.idx hcase.1.mtu (m.updateMtuLogicChecked_eq r deltaTime) hcase.2
  obtain heq | ⟨p, hsame, heq⟩ | ⟨p, newMtu, hsame, hnew, heq⟩ := m.updateMtuLogic_cases r deltaTime
  · rw [heq]
    exact ⟨⟨rfl, rfl⟩, [], (List.append_nil _).symm, by simp⟩
  · rw [heq, setPeer_self]
    exact ⟨hsame, [], (List.append_nil _).symm, by simp⟩
  · rw [heq]
    exact sendCheck_spec hsame hnew

theorem selfSized_of_fields (h : ¬ ((packet.getInt32 1).toInt ≠ packet.size ∨
    (packet.getInt32 1).toInt ≠ (packet.getInt32 (packet.size - 4)).toInt ∨
    (maxPacketSize : ℤ) < (packet.getInt32 1).toInt)) : SelfSized packet := by
  obtain ⟨hsize, hfields⟩ := not_or.mp h
  obtain ⟨hend, -⟩ := not_or.mp hfields
  exact ⟨not_not.mp hsize, (not_not.mp hend).symm.trans (not_not.mp hsize)⟩

/-- The answer to a check is the check with another kind. -/
theorem answer_bytes (packet : NetPacket) :
    (packet.setProperty .mtuOk).wire.length = packet.size ∧
      (packet.setProperty .mtuOk).wire.drop 1 = packet.wire.drop 1 := by
  refine ⟨NetPacket.length_wire _, ?_⟩
  apply List.ext_getElem?
  intro i
  rw [List.getElem?_drop, List.getElem?_drop]
  by_cases hi : 1 + i < packet.size
  · rw [NetPacket.getElem?_wire _ (by rwa [NetPacket.size_setProperty]),
      NetPacket.getElem?_wire _ hi, NetPacket.setProperty, NetPacket.setByte, NetPacket.write,
      getElem?_writeBytes, if_neg (by simp)]
  · rw [List.getElem?_eq_none, List.getElem?_eq_none]
    · rw [NetPacket.length_wire]
      omega
    · rw [NetPacket.length_wire, NetPacket.size_setProperty]
      omega

theorem processMtuPacket_spec (h : (m.peerAt r).MtuInTable)
    (kind : packet.property = .mtuCheck ∨ packet.property = .mtuOk) :
    MtuStepSpec m r (.receive packet) (m.processMtuPacket r packet) := by
  have hrange : m.mtuStepChecked r (.receive packet) = some (m.processMtuPacket r packet) :=
    processMtuPacketChecked_eq h packet
  obtain ⟨hrecycle, hrecycleSent, -⟩ := m.poolRecycle_frame packet
  have hquiet : m.processMtuPacket r packet = m.poolRecycle packet →
      MtuStepSpec m r (.receive packet) (m.processMtuPacket r packet) := by
    intro heq
    apply MtuStepSpec.unchanged h
    · rw [heq, hrecycle]
    · rw [heq, hrecycle]
    · exact hrange
    · exact ⟨[], by rw [heq, hrecycleSent, List.append_nil], by simp⟩
  by_cases hsmall : packet.size < possibleMtu.getD 0 0
  · apply hquiet
    rw [processMtuPacket]
    exact if_pos hsmall
  by_cases hfields : (packet.getInt32 1).toInt ≠ packet.size ∨
      (packet.getInt32 1).toInt ≠ (packet.getInt32 (packet.size - 4)).toInt ∨
      (maxPacketSize : ℤ) < (packet.getInt32 1).toInt
  · apply hquiet
    rw [processMtuPacket]
    dsimp only
    rw [if_neg hsmall, if_pos hfields]
  have hself := selfSized_of_fields hfields
  by_cases hcheck : packet.property = .mtuCheck
  · -- a check is sent back
    have heq : m.processMtuPacket r packet =
        ((m.setPeer r { m.peerAt r with mtuCheckAttempts := 0 }).sendRawAndRecycle
          (packet.setProperty .mtuOk) (m.peerAt r).endpoint).1 := by
      rw [processMtuPacket]
      dsimp only
      rw [if_neg hsmall, if_neg hfields, if_pos hcheck]
    obtain ⟨⟨state, hpeer⟩, hsent⟩ := sendRawAndRecycle_frame
      (m.setPeer r { m.peerAt r with mtuCheckAttempts := 0 }) (packet.setProperty .mtuOk)
      (m.peerAt r).endpoint r
    rw [setPeer_self] at hpeer
    rw [heq] at hrange ⊢
    refine ⟨?_, hrange, ?_, [⟨(m.peerAt r).endpoint, (packet.setProperty .mtuOk).wire⟩], hsent, ?_⟩
    · rw [hpeer]
      exact ⟨h.idx_lt, h.mtu_eq⟩
    · rw [hpeer]
      exact fun hlt => absurd hlt (lt_irrefl _)
    · intro d hd _
      rw [List.mem_singleton.mp hd]
      exact ⟨packet, rfl, hcheck, hself, answer_bytes packet⟩
  by_cases hdone : (packet.getInt32 1).toInt ≤ (m.peerAt r).mtu ∨ (m.peerAt r).finishMtu = true
  · apply hquiet
    rw [processMtuPacket]
    dsimp only
    rw [if_neg hsmall, if_neg hfields, if_neg hcheck, if_pos hdone]
  by_cases hother : (packet.getInt32 1).toInt ≠ (possibleMtu.getD ((m.peerAt r).mtuIdx + 1) 0 : ℕ)
  · apply hquiet
    rw [processMtuPacket]
    dsimp only
    rw [if_neg hsmall, if_neg hfields, if_neg hcheck, if_neg hdone, if_pos hother]
  -- an answer of the next size moves the index on
  have hnext : (m.peerAt r).mtuIdx + 1 < possibleMtu.length :=
    succ_lt_of_received h (not_or.mp (not_or.mp hfields).2).2 (not_or.mp hdone).1
  have hgrown : ((m.processMtuPacket r packet).peerAt r).mtuIdx = (m.peerAt r).mtuIdx + 1 ∧
      ((m.processMtuPacket r packet).peerAt r).mtu =
        possibleMtu.getD ((m.peerAt r).mtuIdx + 1) 0 ∧
      (m.processMtuPacket r packet).sent = m.sent := by
    rw [processMtuPacket]
    dsimp only
    rw [if_neg hsmall, if_neg hfields, if_neg hcheck, if_neg hdone, if_neg hother]
    have hset : ∀ p : NetPeer, ((m.setPeer r p).poolRecycle packet).peerAt r = p ∧
        ((m.setPeer r p).poolRecycle packet).sent = m.sent := by
      intro p
      obtain ⟨hpeer, hsent, -⟩ := (m.setPeer r p).poolRecycle_frame packet
      rw [hpeer, hsent, setPeer_self]
      exact ⟨rfl, rfl⟩
    rw [(hset _).1, (hset _).2]
    split <;> exact ⟨rfl, rfl, rfl⟩
  obtain ⟨hidx, hmtu, hsent⟩ := hgrown
  refine ⟨⟨hidx ▸ hnext, by rw [hmtu, hidx]⟩, hrange, fun _ => ?_, [], by simp [hsent], by simp⟩
  refine ⟨packet, rfl, kind.resolve_left hcheck, hidx, ?_, hself⟩
  have hsize := hself.1
  rw [not_not.mp hother] at hsize
  rw [hmtu]
  exact_mod_cast hsize.symm

theorem mtuStep_spec (h : (m.peerAt r).MtuInTable) (valid : event.Valid) :
    MtuStepSpec m r event (m.mtuStep r event) := by
  cases event with
  | update deltaTime => exact updateMtuLogic_spec h deltaTime
  | receive packet => exact processMtuPacket_spec h valid.2
  | reset =>
    refine ⟨?_, rfl, ?_, [], (List.append_nil _).symm, by simp⟩
    · rw [mtuStep, setPeer_self]
      exact (m.peerAt r).resetMtu_inTable
    · rw [mtuStep, setPeer_self, h.mtu_eq]
      exact fun hlt => absurd hlt (not_lt.mpr (first_mtu_le h.idx_lt))

theorem runMtu_inTable (h : (m.peerAt r).MtuInTable) {events : List MtuEvent}
    (valid : ∀ event ∈ events, event.Valid) : ((m.runMtu r events).peerAt r).MtuInTable := by
  induction events generalizing m with
  | nil => exact h
  | cons event events ih =>
    rw [runMtu, List.foldl_cons]
    exact ih (mtuStep_spec h (valid event List.mem_cons_self)).inTable
      (fun e he => valid e (List.mem_cons_of_mem _ he))

/-- Whatever happened to a peer since it was constructed, the MTU is the table's entry, and the next
event reads no further than the table, raises the MTU by one entry and only on an answer of that
size, and answers checks of their own size only. -/
theorem runMtu_spec {channelsCount id : ℕ} {endpoint : NetAddress}
    (constructed : SameMtu (NetPeer.new channelsCount endpoint id) (m.peerAt r))
    {events : List MtuEvent} (valid : ∀ event ∈ events, event.Valid) :
    ((m.runMtu r events).peerAt r).MtuInTable ∧ ∀ event : MtuEvent, event.Valid →
      MtuStepSpec (m.runMtu r events) r event ((m.runMtu r events).mtuStep r event) := by
  have hnew : (m.peerAt r).MtuInTable := by
    refine ⟨?_, ?_⟩
    · rw [constructed.idx]
      exact show 0 < possibleMtu.length by decide
    · rw [constructed.mtu, constructed.idx]
      rfl
  have hrun := runMtu_inTable hnew valid
  exact ⟨hrun, fun event hevent => mtuStep_spec hrun hevent⟩

/-- A packet of that size, as both of its length fields say. -/
def mtuPacket (property : PacketProperty) (size : ℕ) : NetPacket :=
  (((NetPacket.empty.resize size).setProperty property).setValueAt size 1 4).setValueAt size
    (size - 4) 4

/-- The first check is answered, and the other side checks the next size. -/
def mtuEvents : List MtuEvent :=
  [.update 1000, .receive (mtuPacket .mtuOk 1024), .update 1000,
    .receive (mtuPacket .mtuCheck 1204)]

/-- A manager with one peer that just came to be. -/
def mtuHost : NetManager := .new (.const 0) (.const 0) (.const .ok)

theorem runMtu_spec_mtuEvents : ((mtuHost.runMtu 0 mtuEvents).peerAt 0).mtuIdx = 1 ∧
    ((mtuHost.runMtu 0 mtuEvents).peerAt 0).MtuInTable ∧ ∀ event : MtuEvent, event.Valid →
      MtuStepSpec (mtuHost.runMtu 0 mtuEvents) 0 event
        ((mtuHost.runMtu 0 mtuEvents).mtuStep 0 event) := by
  refine ⟨by decide +kernel, @runMtu_spec mtuHost 0 1 0 ⟨2, 0, 0, 0⟩ ⟨rfl, rfl⟩ mtuEvents ?_⟩
  intro event hevent
  simp only [mtuEvents, List.mem_cons, List.not_mem_nil, or_false] at hevent
  rcases hevent with rfl | rfl | rfl | rfl
  · trivial
  · exact ⟨by decide +kernel, .inr (by decide +kernel)⟩
  · trivial
  · exact ⟨by decide +kernel, .inl (by decide +kernel)⟩

end Steps

end NetManager

end LiteNet.Manager
