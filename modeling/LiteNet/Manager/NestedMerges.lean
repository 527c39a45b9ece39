import LiteNet.Manager.Serving
import LiteNet.Manager.Unmerging

/-! # Merged packets inside merged packets

A packet taken out of a merged one may claim to be longer than that, so sizes do not
bound how deep packets are merged. What bounds it is where the bytes that are not zero
end: a packet from the pool is zero behind what is copied, and every level begins at
least three bytes later.
-/

namespace LiteNet.Manager
open Library Wire Channels

namespace NetManager

def Clean (m : NetManager) : Prop := ∀ p ∈ m.packetPool, Pooled p

section Clean

variable {m m' : NetManager}

theorem Clean.aside (hm : Clean m) (h : Aside m m') : Clean m' := by
  intro p hp
  rcases h.pool p hp with hp | hpooled
  · exact hm p hp
  · exact hpooled

theorem Clean.poolRecycle (hm : Clean m) (packet : NetPacket) : Clean (m.poolRecycle packet) :=
  hm.aside (m.poolRecycle_aside packet)

theorem Clean.createEvent (hm : Clean m) (args : NetEvent) : Clean (m.createEvent args) := hm

theorem Clean.setPeer (hm : Clean m) (r : PeerRef) (p : NetPeer) : Clean (m.setPeer r p) := hm

theorem Clean.noteShutdown (hm : Clean m) (r : PeerRef) (shutdownResult : ShutdownResult)
    (reason : DisconnectReason) (socketErrorCode : ℕ) (eventData : Option NetPacket) :
    Clean (m.noteShutdown r shutdownResult reason socketErrorCode eventData) := by
  rw [NetManager.noteShutdown]
  split
  · exact hm.aside (m.poolRecycleOption_aside eventData)
  · exact hm.createEvent _

theorem Clean.unreachable (hm : Clean m) (endpoint : NetAddress) (reason : DisconnectReason)
    (errorCode : ℕ) : Clean (m.unreachable endpoint reason errorCode) := by
  rw [NetManager.unreachable]
  refine Clean.createEvent ?_ _
  split
  · rw [disconnectPeerForce]
    split
    · exact hm
    · exact (hm.setPeer _ _).noteShutdown _ _ _ _ _
  · exact hm

theorem Clean.sendRaw (hm : Clean m) (bytes : Bytes) (endpoint : NetAddress) :
    Clean (m.sendRaw bytes endpoint).1 := by
  obtain ⟨results, h | ⟨reason, code, h⟩⟩ := m.sendRaw_cases bytes endpoint
  · rw [h]
    exact hm
  · rw [h]
    apply Clean.unreachable
    exact hm

theorem Clean.poolGetPacket (hm : Clean m) (size : ℕ) : Clean (m.poolGetPacket size).2 :=
  hm.aside (m.poolGetPacket_aside size)

theorem servingKeeps_clean (r : PeerRef) : ServingKeeps r Clean where
  setPeer := fun _ p hm _ => hm.setPeer r p
  createEvent := fun _ args hm => hm.createEvent args
  poolRecycle := fun _ packet hm => hm.poolRecycle packet
  poolGetPacket := fun _ size hm => hm.poolGetPacket size
  sendRaw := fun _ bytes endpoint hm => hm.sendRaw bytes endpoint
  getCurrentTime := fun _ hm => hm

theorem Clean.processPong (hm : Clean m) (r : PeerRef) (packet : NetPacket) :
    Clean (m.processPong r packet) := by
  rw [NetManager.processPong]
  dsimp only
  split
  · refine Clean.poolRecycle ?_ packet
    apply (servingKeeps_clean r).connectionLatencyUpdated
    exact hm
  · exact hm.poolRecycle packet

theorem Clean.processMerged (hm : Clean m) {process : NetManager → NetPacket → NetManager}
    (hprocess : ∀ m packet, Clean m → Clean (process m packet)) (packet : NetPacket)
    (fuel pos : ℕ) : Clean (processMerged process packet fuel pos m) := by
  induction fuel generalizing pos m with
  | zero => exact hm
  | succ fuel ih =>
    have hgot := hm.poolGetPacket (packet.getValueAt pos 2)
    rw [NetManager.processMerged]
    dsimp only
    split_ifs
    · exact hm
    · exact hm
    · exact hgot
    · exact ih (hprocess _ _ hgot) _

theorem Clean.processPacketWith (hm : Clean m) {process : NetManager → NetPacket → NetManager}
    (hprocess : ∀ m packet, Clean m → Clean (process m packet)) (r : PeerRef)
    (packet : NetPacket) : Clean (m.processPacketWith process r packet) := by
  have hheard := hm.setPeer r { m.peerAt r with timeSinceLastPacket := 0 }
  rw [NetManager.processPacketWith]
  dsimp only
  split_ifs
  · exact hm.poolRecycle packet
  · exact (hm.setPeer _ _).poolRecycle packet
  · exact (hm.setPeer _ _).poolRecycle packet
  · exact hm.poolRecycle packet
  · split
    · exact (hheard.processMerged hprocess packet _ _).poolRecycle packet
    · exact (servingKeeps_clean r).processPing hheard packet
    · exact hheard.processPong r packet
    · exact (servingKeeps_clean r).processChanneled hheard packet
    · exact (servingKeeps_clean r).processChanneled hheard packet
    · exact hheard.createEvent _
    · exact (servingKeeps_clean r).processMtuPacket hheard packet
    · exact (servingKeeps_clean r).processMtuPacket hheard packet
    · exact hheard

end Clean

/-- What lies in the memory behind the buffer of a packet when the loop over it stands at a place;
behind that are zeros. -/
abbrev Memory := NetManager → NetPacket → ℕ → Bytes

/-- A length field. Its second byte may lie behind the buffer. -/
def fieldAt (memory : Memory) (m : NetManager) (packet : NetPacket) (pos : ℕ) : ℕ :=
  readLE (packet.data ++ memory m packet pos) pos 2

/-- The packet behind a length field, taken from the pool. -/
def takenOut (memory : Memory) (m : NetManager) (packet : NetPacket) (pos : ℕ) : NetPacket :=
  (m.poolGetPacket (fieldAt memory m packet pos)).1.write 0
    (readBytes (packet.data ++ memory m packet pos) (pos + 2) (fieldAt memory m packet pos))

/-- The peer was heard. -/
def heard (m : NetManager) (r : PeerRef) : NetManager :=
  m.setPeer r { m.peerAt r with timeSinceLastPacket := 0 }

mutual

/-- `process_packet` ends in `m'`, with merged packets `depth` deep in each other. -/
inductive Unpacks (memory : Memory) (r : PeerRef) : NetManager → NetPacket → NetManager → ℕ → Prop
  | single {m packet} (other : ¬ m.Unmerging r packet) :
      Unpacks memory r m packet (m.processPacketWith (fun m _ => m) r packet) 0
  | merged {m packet m' depth} (merged : m.Unmerging r packet)
      (loop : UnpacksFrom memory r packet headerSize (m.heard r) m' depth) :
      Unpacks memory r m packet (m'.poolRecycle packet) (depth + 1)

/-- The loop over a merged packet ends in `m'`; `depth` is that of the deepest packet in it. -/
inductive UnpacksFrom (memory : Memory) (r : PeerRef) :
    NetPacket → ℕ → NetManager → NetManager → ℕ → Prop
  | done {packet : NetPacket} {pos m} (finished : packet.size ≤ pos) :
      UnpacksFrom memory r packet pos m m 0
  | cut {packet : NetPacket} {pos m} (more : pos < packet.size)
      (beyond : sizeSub packet.bufferSize (pos + 2) < fieldAt memory m packet pos) :
      UnpacksFrom memory r packet pos m m 0
  | unverified {packet : NetPacket} {pos m} (more : pos < packet.size)
      (inside : ¬ sizeSub packet.bufferSize (pos + 2) < fieldAt memory m packet pos)
      (unverified : (takenOut memory m packet pos).verify = false) :
      UnpacksFrom memory r packet pos m (m.poolGetPacket (fieldAt memory m packet pos)).2 0
  | next {packet : NetPacket} {pos m m' m'' depth depth'} (more : pos < packet.size)
      (inside : ¬ sizeSub packet.bufferSize (pos + 2) < fieldAt memory m packet pos)
      (verified : (takenOut memory m packet pos).verify = true)
      (call : Unpacks memory r (m.poolGetPacket (fieldAt memory m packet pos)).2
        (takenOut memory m packet pos) m' depth)
      (rest : UnpacksFrom memory r packet (pos + 2 + fieldAt memory m packet pos) m' m'' depth') :
      UnpacksFrom memory r packet pos m m'' (max depth depth')

end

/-- The peer takes merged packets apart that have its number. -/
def Receptive (m : NetManager) (r : PeerRef) : Prop :=
  (m.peerAt r).isConnected = true ∧ (m.peerAt r).connectNumber.toNat < maxConnectionNumber

instance (m : NetManager) (r : PeerRef) : Decidable (m.Receptive r) :=
  inferInstanceAs (Decidable (_ ∧ _))

mutual

/-- In a call of `process_packet` a length field is read of which only the first byte is in the
buffer, while the peer still takes packets apart. -/
inductive Overruns (memory : Memory) (r : PeerRef) : NetManager → NetPacket → Prop
  | merged {m packet} (merged : m.Unmerging r packet)
      (loop : OverrunsFrom memory r packet headerSize (m.heard r)) : Overruns memory r m packet

/-- The loop over a merged packet comes to such a field. -/
inductive OverrunsFrom (memory : Memory) (r : PeerRef) : NetPacket → ℕ → NetManager → Prop
  | here {packet : NetPacket} {pos m} (more : pos < packet.size)
      (beyond : packet.bufferSize < pos + 2) (receptive : m.Receptive r) :
      OverrunsFrom memory r packet pos m
  | inside {packet : NetPacket} {pos m} (more : pos < packet.size)
      (inside : ¬ sizeSub packet.bufferSize (pos + 2) < fieldAt memory m packet pos)
      (verified : (takenOut memory m packet pos).verify = true)
      (call : Overruns memory r (m.poolGetPacket (fieldAt memory m packet pos)).2
        (takenOut memory m packet pos)) : OverrunsFrom memory r packet pos m
  | later {packet : NetPacket} {pos m m' depth} (more : pos < packet.size)
      (inside : ¬ sizeSub packet.bufferSize (pos + 2) < fieldAt memory m packet pos)
      (verified : (takenOut memory m packet pos).verify = true)
      (call : Unpacks memory r (m.poolGetPacket (fieldAt memory m packet pos)).2
        (takenOut memory m packet pos) m' depth)
      (rest : OverrunsFrom memory r packet (pos + 2 + fieldAt memory m packet pos) m') :
      OverrunsFrom memory r packet pos m

end

section Unpacks

variable {memory : Memory} {m m' : NetManager} {r : PeerRef} {packet : NetPacket} {n depth : ℕ}

theorem Unmerging.pos (h : m.Unmerging r packet) (hzero : ∀ i, n ≤ i → packet.byte i = 0) :
    0 < n := by
  by_contra hn
  have hbyte : packet.byte 0 = 0 := hzero 0 (by omega)
  have hproperty := h.2.1
  rw [NetPacket.property, NetPacket.propertyCode, hbyte] at hproperty
  revert hproperty
  decide

theorem Unmerging.receptive (h : m.Unmerging r packet) : m.Receptive r := by
  refine ⟨h.1, ?_⟩
  rw [← h.2.2]
  exact packet.connectionNumber_lt

/-- A field inside the buffer that is not cut off has its packet inside the buffer. -/
theorem inside_of_not_cut {pos size : ℕ} (hpos : pos ≤ packet.bufferSize)
    (h : ¬ sizeSub packet.bufferSize pos < size) : pos + size ≤ packet.data.length := by
  have hle : sizeSub packet.bufferSize pos ≤ packet.bufferSize - pos := by
    rw [sizeSub, Nat.add_comm, Nat.add_sub_assoc hpos, Nat.add_mod_left]
    exact Nat.mod_le _ _
  have hlength : packet.bufferSize = packet.data.length := rfl
  omega

/-- What is copied from a later place ends earlier. -/
theorem takenOut_zero (hm : Clean m) (hzero : ∀ i, n ≤ i → packet.byte i = 0) {pos : ℕ}
    (hpos : pos + 2 ≤ packet.bufferSize)
    (h : ¬ sizeSub packet.bufferSize (pos + 2) < fieldAt memory m packet pos) :
    ∀ i, n - (pos + 2) ≤ i → (takenOut memory m packet pos).byte i = 0 := by
  intro i hi
  have hpool := poolGetPacket_zero hm (fieldAt memory m packet pos) i
  have hcopied : packet.byte (pos + 2 + i) = 0 := hzero _ (by omega)
  rw [takenOut, readBytes_append_of_le _ _ (inside_of_not_cut hpos h)]
  rw [NetPacket.byte, List.getD_eq_getElem?_getD] at hpool hcopied ⊢
  rw [NetPacket.write, getElem?_writeBytes]
  split
  · rw [getElem?_readBytes, Nat.sub_zero]
    split
    · exact hcopied
    · rfl
  · exact hpool

/-- The loop ends when the calls in it end, and is as deep as they are. -/
theorem unpacksFrom_exists (bound : ℕ)
    (hcall : ∀ m packet', Clean m → (∀ i, n - 3 ≤ i → packet'.byte i = 0) →
      ¬ Overruns memory r m packet' →
        ∃ m' d, Clean m' ∧ Unpacks memory r m packet' m' d ∧ d ≤ bound)
    (hzero : ∀ i, n ≤ i → packet.byte i = 0) (fuel pos : ℕ) (hm : Clean m) (hpos : 1 ≤ pos)
    (hfuel : packet.size ≤ pos + fuel) (hnot : ¬ OverrunsFrom memory r packet pos m) :
    ∃ m' d, Clean m' ∧ UnpacksFrom memory r packet pos m m' d ∧ d ≤ bound := by
  induction fuel generalizing pos m with
  | zero => exact ⟨m, 0, hm, .done hfuel, Nat.zero_le _⟩
  | succ fuel ih =>
    by_cases hdone : packet.size ≤ pos
    · exact ⟨m, 0, hm, .done hdone, Nat.zero_le _⟩
    have hmore := not_le.mp hdone
    by_cases hcut : sizeSub packet.bufferSize (pos + 2) < fieldAt memory m packet pos
    · exact ⟨m, 0, hm, .cut hmore hcut, Nat.zero_le _⟩
    have hgot := hm.poolGetPacket (fieldAt memory m packet pos)
    cases hverify : (takenOut memory m packet pos).verify with
    | false => exact ⟨_, 0, hgot, .unverified hmore hcut hverify, Nat.zero_le _⟩
    | true =>
      by_cases hover : packet.bufferSize < pos + 2
      · -- what is taken out then is not taken apart, and the loop is over
        have hother : ¬ (m.poolGetPacket (fieldAt memory m packet pos)).2.Unmerging r
            (takenOut memory m packet pos) := by
          intro hunmerging
          have hreceptive := hunmerging.receptive
          rw [Receptive, (m.poolGetPacket_aside _).peerAt] at hreceptive
          exact hnot (.here hmore hover hreceptive)
        have hsize := packet.size_le
        have hbuffer : packet.bufferSize = packet.data.length := rfl
        exact ⟨_, _, hgot.processPacketWith (fun _ _ hm => hm) r _,
          .next hmore hcut hverify (.single hother) (.done (by omega)), by simp⟩
      · obtain ⟨m₁, d, hm₁, hunpacks, hd⟩ := hcall _ (takenOut memory m packet pos) hgot
          (fun i hi => takenOut_zero hm hzero (not_lt.mp hover) hcut i (by omega))
          (fun h => hnot (.inside hmore hcut hverify h))
        obtain ⟨m₂, d', hm₂, hrest, hd'⟩ := ih (pos + 2 + fieldAt memory m packet pos) hm₁
          (by omega) (by omega) (fun h => hnot (.later hmore hcut hverify hunpacks h))
        exact ⟨m₂, max d d', hm₂, .next hmore hcut hverify hunpacks hrest, max_le hd hd'⟩

/-- Where the bytes from `n` on are zero, merged packets are at most a third of `n` deep in each
other. -/
theorem unpacks_exists (fuel : ℕ) (hm : Clean m) (hzero : ∀ i, n ≤ i → packet.byte i = 0)
    (hfuel : n ≤ 3 * fuel) (hnot : ¬ Overruns memory r m packet) :
    ∃ m' depth, Clean m' ∧ Unpacks memory r m packet m' depth ∧ depth ≤ (n + 2) / 3 := by
  induction fuel generalizing n m packet with
  | zero =>
    have hother : ¬ m.Unmerging r packet := by
      intro h
      have hpos := h.pos hzero
      omega
    exact ⟨_, 0, hm.processPacketWith (fun _ _ hm => hm) r packet, .single hother, Nat.zero_le _⟩
  | succ fuel ih =>
    by_cases h : m.Unmerging r packet
    · have hpos := h.pos hzero
      obtain ⟨m', depth, hm', hloop, hdepth⟩ := unpacksFrom_exists ((n - 3 + 2) / 3)
        (fun m packet' hm hz hn => ih (n := n - 3) hm hz (by omega) hn) hzero packet.size _
        (hm.setPeer r _) le_rfl (Nat.le_add_left _ _)
        (fun hloop => hnot (.merged h hloop))
      exact ⟨_, depth + 1, hm'.poolRecycle packet, .merged h hloop, by omega⟩
    · exact ⟨_, 0, hm.processPacketWith (fun _ _ hm => hm) r packet, .single h, Nat.zero_le _⟩

/-- Whatever is in a packet and in the memory behind it and whatever state the peer is in, taking
the packet apart ends unless it overruns, and merged packets are at most a third of its size deep in
each other. -/
theorem unpacks_of_not_overruns (hm : Clean m) (hzero : ∀ i, packet.size ≤ i → packet.byte i = 0)
    (hnot : ¬ Overruns memory r m packet) :
    ∃ m' depth, Unpacks memory r m packet m' depth ∧ depth ≤ packet.size / 3 + 1 := by
  obtain ⟨m', depth, -, hunpacks, hdepth⟩ :=
    unpacks_exists packet.size hm hzero (Nat.le_mul_of_pos_left _ (by decide)) hnot
  exact ⟨m', depth, hunpacks, by omega⟩

/-- A datagram is received into a packet that is zero behind it. -/
theorem receivePacket_zero (hm : Clean m) (bytes : Bytes) :
    ∀ i, bytes.length ≤ i → (m.receivePacket bytes).byte i = 0 := by
  intro i hi
  refine NetPacket.byte_resize_zero ?_ _
  rw [NetPacket.byte_write_of_disjoint _ _ _ _ (.inr (by omega))]
  exact poolGetPacket_zero hm maxPacketSize i

/-- With zeros behind the buffers, what a call ends in is what the model of `process_packet`
computes. -/
theorem Unpacks.processPacketTo_eq (hmemory : memory = fun _ _ _ => [])
    (h : Unpacks memory r m packet m' depth) :
    ∀ k, depth < k → processPacketTo r k m packet = m' := by
  refine @Unpacks.rec memory r
    (fun m packet m' depth _ => ∀ k, depth < k → processPacketTo r k m packet = m')
    (fun packet pos m m' depth _ => ∀ k, depth < k → ∀ fuel, packet.size ≤ pos + fuel →
      processMerged (processPacketTo r k) packet fuel pos m = m')
    ?single ?merged ?done ?cut ?unverified ?next m packet m' depth h
  case single =>
    intro m packet other k hk
    obtain ⟨k, rfl⟩ : ∃ j, k = j + 1 := ⟨k - 1, by omega⟩
    rw [NetManager.processPacketTo_eq, if_neg other]
  case merged =>
    intro m packet m' depth merged loop ih k hk
    obtain ⟨k, rfl⟩ : ∃ j, k = j + 1 := ⟨k - 1, by omega⟩
    rw [NetManager.processPacketTo_eq, if_pos merged, tracedMerged_fst,
      ← heard, ih k (by omega) packet.size (Nat.le_add_left _ _)]
  case done =>
    intro packet pos m finished k hk fuel hfuel
    cases fuel with
    | zero => rfl
    | succ fuel => rw [processMerged, if_pos finished]
  all_goals
    intro packet pos m
    have hfield : fieldAt memory m packet pos = packet.getValueAt pos 2 := by
      rw [fieldAt, hmemory, List.append_nil, NetPacket.getValueAt]
    have htaken : takenOut memory m packet pos = (m.poolGetPacket (packet.getValueAt pos 2)).1.write 0
        (readBytes packet.data (pos + 2) (packet.getValueAt pos 2)) := by
      rw [takenOut, hfield, hmemory, List.append_nil]
    simp only [hfield, htaken]
  case cut =>
    intro more beyond k hk fuel hfuel
    obtain ⟨fuel, rfl⟩ : ∃ j, fuel = j + 1 := ⟨fuel - 1, by omega⟩
    rw [processMerged, if_neg (by omega)]
    exact if_pos beyond
  case unverified =>
    intro more inside unverified k hk fuel hfuel
    obtain ⟨fuel, rfl⟩ : ∃ j, fuel = j + 1 := ⟨fuel - 1, by omega⟩
    rw [processMerged, if_neg (by omega)]
    exact (if_neg inside).trans (if_pos (by simpa using unverified))
  case next =>
    intro m' m'' depth depth' more inside verified call rest ihCall ihRest k hk fuel hfuel
    obtain ⟨fuel, rfl⟩ : ∃ j, fuel = j + 1 := ⟨fuel - 1, by omega⟩
    rw [processMerged, if_neg (by omega)]
    refine (if_neg inside).trans ((if_neg (by simpa using verified)).trans ?_)
    have hcall := ihCall k (by omega)
    exact hcall ▸ ihRest k (by omega) fuel (by omega)

theorem processPacket_unpacks (hm : Clean m) (hzero : ∀ i, packet.size ≤ i → packet.byte i = 0)
    (hnot : ¬ Overruns (fun _ _ _ => []) r m packet) :
    ∃ depth, Unpacks (fun _ _ _ => []) r m packet (m.processPacket r packet) depth ∧
      depth ≤ packet.size / 3 + 1 := by
  obtain ⟨m', depth, hunpacks, hdepth⟩ := unpacks_of_not_overruns hm hzero hnot
  have hbuffer : packet.size ≤ packet.bufferSize := packet.size_le
  have hpos := packet.bufferSize_pos
  rw [processPacket, hunpacks.processPacketTo_eq rfl _ (by omega)]
  exact ⟨depth, hunpacks, hdepth⟩

end Unpacks

end NetManager

end LiteNet.Manager
