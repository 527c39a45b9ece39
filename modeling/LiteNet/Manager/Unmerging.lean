import LiteNet.Manager.DispatchChanges

/-! # Taking merged packets apart

The loop over a merged packet compares what a length field claims with the buffer of
the packet, not with the bytes in use. The fields it reads are recorded here with the
calls of `process_packet` they lead to, which take further merged packets apart.
-/

namespace LiteNet.Wire.NetPacket
open Library

/-- The packet behind a length field, in a new buffer. -/
def entry (packet : NetPacket) (pos : ℕ) : NetPacket :=
  let size := packet.getValueAt pos 2
  (empty.resize size).write 0 (readBytes packet.data (pos + 2) size)

/-- No length field is cut off, and one that claims more than is in use either claims more than the
buffer holds or has no packet behind it that verifies. -/
def wellMergedFrom (packet : NetPacket) : ℕ → ℕ → Bool
  | 0, _ => true
  | fuel + 1, pos =>
    let size := packet.getValueAt pos 2
    packet.size ≤ pos || (pos + 2 ≤ packet.size &&
      (sizeSub packet.bufferSize (pos + 2) < size || !(packet.entry pos).verify ||
        (pos + 2 + size ≤ packet.size && packet.wellMergedFrom fuel (pos + 2 + size))))

def wellMerged (packet : NetPacket) : Bool := packet.wellMergedFrom packet.size headerSize

/-- Whether a packet verifies after a copy depends on its size and its first byte before it. -/
theorem verify_write_congr {p q : NetPacket} (hsize : p.size = q.size) (hbyte : p.byte 0 = q.byte 0)
    (bytes : Bytes) : (p.write 0 bytes).verify = (q.write 0 bytes).verify := by
  have hp := p.bufferSize_pos
  have hq := q.bufferSize_pos
  rw [bufferSize] at hp hq
  refine verify_congr hsize ?_
  cases bytes with
  | nil => exact hbyte
  | cons b bytes =>
    rw [byte, byte, List.getD_eq_getElem?_getD, List.getD_eq_getElem?_getD, write, write,
      getElem?_writeBytes, getElem?_writeBytes, if_pos (by simp [hp]), if_pos (by simp [hq])]

end LiteNet.Wire.NetPacket

namespace LiteNet.Manager
open Library Wire Channels Relation

/-- A length field that was read, and the call of `process_packet` that it led to. -/
structure LengthField where
  pos : ℕ
  size : ℕ
  call : Option (NetManager × NetPacket)

/-- The field, and the packet behind it if that was dispatched, lie in the bytes in use. -/
def LengthField.Inside (packet : NetPacket) (f : LengthField) : Prop :=
  f.pos + 2 ≤ packet.size ∧ (f.call.isSome = true → f.pos + 2 + f.size ≤ packet.size)

namespace NetManager

/-- `process_packet` takes the packet apart. -/
def Unmerging (m : NetManager) (r : PeerRef) (packet : NetPacket) : Prop :=
  (m.peerAt r).isConnected = true ∧ packet.property = .merged ∧
    packet.connectionNumber = (m.peerAt r).connectNumber

instance (m : NetManager) (r : PeerRef) (packet : NetPacket) :
    Decidable (m.Unmerging r packet) := inferInstanceAs (Decidable (_ ∧ _ ∧ _))

/-- The loop over a merged packet with a record of the length fields it reads. -/
def tracedMerged (process : NetManager → NetPacket → NetManager) (packet : NetPacket) :
    ℕ → ℕ → NetManager → NetManager × List LengthField
  | 0, _, m => (m, [])
  | fuel + 1, pos, m =>
    if packet.size ≤ pos then (m, [])
    else
      let size := packet.getValueAt pos 2
      if sizeSub packet.bufferSize (pos + 2) < size then (m, [⟨pos, size, none⟩])
      else
        let got := m.poolGetPacket size
        let mergedPacket := got.1.write 0 (readBytes packet.data (pos + 2) size)
        if !mergedPacket.verify then (got.2, [⟨pos, size, none⟩])
        else
          let rest := tracedMerged process packet fuel (pos + 2 + size) (process got.2 mergedPacket)
          (rest.1, ⟨pos, size, some (got.2, mergedPacket)⟩ :: rest.2)

/-- The fields that a call of `process_packet` reads itself; `depth` bounds the calls inside of it. -/
def lengthFields (depth : ℕ) (m : NetManager) (r : PeerRef) (packet : NetPacket) :
    List LengthField :=
  if m.Unmerging r packet then
    (tracedMerged (processPacketTo r depth) packet packet.size headerSize
      (m.setPeer r { m.peerAt r with timeSinceLastPacket := 0 })).2
  else []

/-- The calls of `process_packet` that a call makes. -/
inductive Calls (r : PeerRef) : ℕ × NetManager × NetPacket → ℕ × NetManager × NetPacket → Prop
  | merged {depth m packet m' packet'} (f) (read : f ∈ lengthFields depth m r packet)
      (call : f.call = some (m', packet')) : Calls r (depth + 1, m, packet) (depth, m', packet')

section Unmerging

variable {process : NetManager → NetPacket → NetManager} {packet : NetPacket} {m : NetManager}
  {r : PeerRef} {n : UInt8}

theorem tracedMerged_fst (process : NetManager → NetPacket → NetManager) (packet : NetPacket)
    (fuel pos : ℕ) (m : NetManager) :
    (tracedMerged process packet fuel pos m).1 = processMerged process packet fuel pos m := by
  induction fuel generalizing pos m with
  | zero => rfl
  | succ fuel ih =>
    rw [tracedMerged, processMerged]
    dsimp only
    split
    · rfl
    · split
      · rfl
      · split
        · rfl
        · exact ih _ _

/-- A call that takes a packet apart is the recorded loop; any other calls nothing. -/
theorem processPacketTo_eq (r : PeerRef) (depth : ℕ) (m : NetManager) (packet : NetPacket) :
    processPacketTo r (depth + 1) m packet =
      if m.Unmerging r packet then
        (tracedMerged (processPacketTo r depth) packet packet.size headerSize
          (m.setPeer r { m.peerAt r with timeSinceLastPacket := 0 })).1.poolRecycle packet
      else m.processPacketWith (fun m _ => m) r packet := by
  rw [processPacketTo, tracedMerged_fst]
  by_cases hc : (m.peerAt r).isConnected = true
  · by_cases hn : packet.connectionNumber = (m.peerAt r).connectNumber
    · by_cases hp : packet.property = .merged
      · rw [if_pos ⟨hc, hp, hn⟩, processPacketWith]
        simp [hc, hn, hp]
      · rw [if_neg (fun h => hp h.2.1), processPacketWith, processPacketWith]
        cases hk : packet.property <;> simp_all
    · rw [if_neg (fun h => hn h.2.2), processPacketWith, processPacketWith]
      simp [hc, hn]
  · rw [if_neg (fun h => hc h.1), processPacketWith, processPacketWith]
    simp [hc]

/-- A packet from the pool verifies like a new one. -/
theorem verify_entry (hm : Consistent m) (packet : NetPacket) (pos : ℕ) :
    ((m.poolGetPacket (packet.getValueAt pos 2)).1.write 0
      (readBytes packet.data (pos + 2) (packet.getValueAt pos 2))).verify =
        (packet.entry pos).verify := by
  apply NetPacket.verify_write_congr
  · exact m.poolGetPacket_size _
  · rw [poolGetPacket_byte hm, NetPacket.byte_resize _ _ (NetPacket.bufferSize_pos _),
      NetPacket.empty, NetPacket.byte_alloc]

/-- The scope of what a session does when it may do everything. -/
theorem process_changes (h : Processes n r m) (depth : ℕ) (packet : NetPacket) :
    Changes fullScope.inSession m (processPacketTo r depth m packet) :=
  processPacketTo_changes (fullScope_open.serving n) id depth m packet h (fun _ => trivial)

theorem Processes.next (h : Processes n r m) (depth size : ℕ) (packet : NetPacket) :
    Processes n r (m.poolGetPacket size).2 ∧
      Processes n r (processPacketTo r depth (m.poolGetPacket size).2 packet) := by
  have hgot := h.changes (fullScope_open.serving n) id (m.poolGetPacket_aside size).changes
  exact ⟨hgot, hgot.changes (fullScope_open.serving n) id (process_changes hgot depth packet)⟩

/-- All fields that the loop reads lie inside exactly if the packet is well merged. -/
theorem tracedMerged_inside_iff (h : Processes n r m) (depth : ℕ) (packet : NetPacket)
    (fuel pos : ℕ) :
    (∀ f ∈ (tracedMerged (processPacketTo r depth) packet fuel pos m).2, f.Inside packet) ↔
      packet.wellMergedFrom fuel pos = true := by
  induction fuel generalizing pos m with
  | zero => simp [tracedMerged, NetPacket.wellMergedFrom]
  | succ fuel ih =>
    have hverify := verify_entry h.consistent packet pos
    have hrest := fun sub => @ih (processPacketTo r depth
      (m.poolGetPacket (packet.getValueAt pos 2)).2 sub)
        (h.next depth (packet.getValueAt pos 2) sub).2 (pos + 2 + packet.getValueAt pos 2)
    rw [tracedMerged, NetPacket.wellMergedFrom]
    dsimp only
    rw [hverify]
    by_cases hend : packet.size ≤ pos
    · simp [hend]
    by_cases hfits : sizeSub packet.bufferSize (pos + 2) < packet.getValueAt pos 2
    · simp [hend, hfits, LengthField.Inside]
    by_cases hv : (packet.entry pos).verify = true
    · simp only [if_neg hend, if_neg hfits, hv, Bool.not_true, Bool.false_eq_true, if_false,
        List.forall_mem_cons, hrest]
      simp [LengthField.Inside, hend, hfits, and_assoc]
    · simp [hend, hfits, hv, LengthField.Inside]

/-- The states in which the calls are made are again states of the session. -/
theorem tracedMerged_call (h : Processes n r m) (depth : ℕ) (packet : NetPacket) (fuel pos : ℕ)
    {f : LengthField}
    (hf : f ∈ (tracedMerged (processPacketTo r depth) packet fuel pos m).2) {m' : NetManager}
    {packet' : NetPacket} (hcall : f.call = some (m', packet')) : Processes n r m' := by
  induction fuel generalizing pos m with
  | zero => simp [tracedMerged] at hf
  | succ fuel ih =>
    rw [tracedMerged] at hf
    dsimp only at hf
    split at hf
    · simp at hf
    · split at hf
      · rw [List.mem_singleton.mp hf] at hcall
        cases hcall
      · split at hf
        · rw [List.mem_singleton.mp hf] at hcall
          cases hcall
        · rcases List.mem_cons.mp hf with rfl | hf
          · cases hcall
            exact (h.next depth _ packet).1
          · exact ih (h.next depth _ _).2 _ hf

theorem Processes.heard (h : Processes n r m) (hc : (m.peerAt r).isConnected = true) :
    Processes n r (m.setPeer r { m.peerAt r with timeSinceLastPacket := 0 }) := by
  have hopen : (m.peerAt r).connectionState ≠ .disconnected := by
    intro hd
    rw [NetPeer.isConnected, hd] at hc
    cases hc
  exact h.changes (fullScope_open.serving n) id (Changes.heard hopen)

theorem Calls.processes {c c' : ℕ × NetManager × NetPacket} (h : Calls r c c')
    (hp : Processes n r c.2.1) : Processes n r c'.2.1 := by
  cases h with
  | merged f read call =>
    rw [lengthFields] at read
    split at read
    · next hu => exact tracedMerged_call (hp.heard hu.1) _ _ _ _ read call
    · simp at read

/-- The call of `process_packet` that a datagram leads to. -/
def receiveCall (m : NetManager) (bytes : Bytes) : ℕ × NetManager × NetPacket :=
  ((m.receivePacket bytes).bufferSize + 1, (m.poolGetPacket maxPacketSize).2, m.receivePacket bytes)

/-- Whatever arrives for a peer in a state that is reached, every call of `process_packet` it leads
to stays inside the packet of the call exactly if that packet, when it is taken apart, is well
merged. -/
theorem lengthFields_inside_iff (h : Reachable Initial Step m) {addr : NetAddress}
    (hr : m.tryGetPeer addr = some r) (bytes : Bytes) {depth : ℕ} {m' : NetManager}
    (hcalls : ReflTransGen (Calls r) (m.receiveCall bytes) (depth + 1, m', packet)) :
    (∀ f ∈ lengthFields depth m' r packet, f.Inside packet) ↔
      (m'.Unmerging r packet → packet.wellMerged = true) := by
  have hm := consistent_of_reachable h
  obtain ⟨hlt, hfound⟩ := found_of_registered hm hr
  have hstart : Processes (m.peerAt r).connectNumber r (m.receiveCall bytes).2.1 :=
    Processes.changes (fullScope_open.serving _) id ⟨⟨hm, hlt, rfl⟩, hfound⟩
      (m.poolGetPacket_aside maxPacketSize).changes
  have hcall : Processes (m.peerAt r).connectNumber r m' :=
    preserved_of_run (P := fun c => Processes (m.peerAt r).connectNumber r c.2.1)
      (fun _ _ hp hs => hs.processes hp) hstart hcalls
  rw [lengthFields]
  by_cases hu : m'.Unmerging r packet
  · rw [if_pos hu, tracedMerged_inside_iff (hcall.heard hu.1) depth packet, NetPacket.wellMerged]
    exact ⟨fun hw _ => hw, fun hw => hw hu⟩
  · rw [if_neg hu]
    exact ⟨fun _ hu' => absurd hu' hu, fun _ _ hf => absurd hf List.not_mem_nil⟩

theorem lengthFields_inside_iff_connectedClient :
    (connectedClient.receivePacket [12, 1, 0, 0]).wellMerged = true ∧
      ∀ f ∈ lengthFields (connectedClient.receivePacket [12, 1, 0, 0]).bufferSize
          (connectedClient.poolGetPacket maxPacketSize).2 0
          (connectedClient.receivePacket [12, 1, 0, 0]),
        f.Inside (connectedClient.receivePacket [12, 1, 0, 0]) := by
  have hmerged : (connectedClient.receivePacket [12, 1, 0, 0]).wellMerged = true := by
    decide +kernel
  have hfound : connectedClient.tryGetPeer ⟨2, 1, 2, 0⟩ = some 0 := by decide +kernel
  exact ⟨hmerged, (lengthFields_inside_iff connectedClient_reachable hfound [12, 1, 0, 0]
    .refl).mpr (fun _ => hmerged)⟩

/-- A merged packet of three bytes whose only field claims five: what the buffer holds behind its end
is dispatched. -/
theorem not_always_lengthFields_inside : ¬ ∀ m, Reachable Initial Step m → ∀ addr r,
    m.tryGetPeer addr = some r → ∀ bytes : Bytes, bytes.length ≤ maxPacketSize →
      ∀ depth m' packet, ReflTransGen (Calls r) (m.receiveCall bytes) (depth + 1, m', packet) →
        ∀ f ∈ lengthFields depth m' r packet, f.Inside packet := by
  intro h
  have hinside := h connectedClient connectedClient_reachable ⟨2, 1, 2, 0⟩ 0 (by decide +kernel)
    [12, 5, 0] (by decide) _ _ _ .refl
  have hover : ((lengthFields (connectedClient.receivePacket [12, 5, 0]).bufferSize
      (connectedClient.poolGetPacket maxPacketSize).2 0
        (connectedClient.receivePacket [12, 5, 0])).any
      (fun f => f.call.isSome && decide (3 < f.pos + 2 + f.size))) = true := by decide +kernel
  obtain ⟨f, hf, hcall⟩ := List.any_eq_true.mp hover
  rw [Bool.and_eq_true, decide_eq_true_eq] at hcall
  have hle := (hinside f hf).2 hcall.1
  have hsize : (connectedClient.receivePacket [12, 5, 0]).size = 3 := rfl
  omega

end Unmerging

end NetManager

end LiteNet.Manager
