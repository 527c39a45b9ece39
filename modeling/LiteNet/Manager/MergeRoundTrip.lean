import LiteNet.Library.LengthPrefixed
import LiteNet.Manager.DispatchChanges
import LiteNet.Manager.SendFrame

/-! # Merging packets and taking them apart

The merge buffer holds the packets gathered since the last send as length-prefixed
entries behind a header byte. The loop of `process_packet` reads the entries back.
Both halves meet at the bytes of a group of packets.
-/

namespace LiteNet.Manager
open Library Wire Channels

/-- The bytes of a merged packet. -/
def mergedGroup (group : List NetPacket) : Bytes :=
  UInt8.ofNat PacketProperty.merged.code :: encodeEntries (group.map NetPacket.wire)

/-- A packet that was gathered alone is sent as it is. -/
def groupBytes : List NetPacket → Bytes
  | [packet] => packet.wire
  | group => mergedGroup group

namespace NetManager

/-- The packet that an entry with the bytes of `packet` is unpacked into. -/
def unpacked (m : NetManager) (packet : NetPacket) : NetPacket :=
  (m.poolGetPacket packet.size).1.write 0 packet.wire

theorem unpacked_wire (m : NetManager) (packet : NetPacket) :
    (m.unpacked packet).wire = packet.wire :=
  NetPacket.wire_write_wire (m.poolGetPacket_size _)

/-- Hand every packet of a group to `process`, each in a packet of the pool. -/
def unpackAll (process : NetManager → NetPacket → NetManager) (m : NetManager)
    (group : List NetPacket) : NetManager :=
  group.foldl (fun m packet => process (m.poolGetPacket packet.size).2 (m.unpacked packet)) m

/-- What the loop needs of a packet to unpack it. -/
structure Unpackable (packet : NetPacket) : Prop where
  verify : packet.verify = true
  size_pos : 1 ≤ packet.size
  size_lt : packet.size < 65536

/-- From the start of the entries of a group the loop unpacks all of them, and then stands at the
end of the packet. -/
theorem processMerged_entries (process : NetManager → NetPacket → NetManager) {packet : NetPacket}
    (hb : packet.bufferSize < 2 ^ 64) {group : List NetPacket} (hg : ∀ q ∈ group, Unpackable q)
    {fuel pos : ℕ} (hpos : pos ≤ packet.size) (hfuel : group.length ≤ fuel) (m : NetManager)
    (h : readBytes packet.data pos (packet.size - pos) = encodeEntries (group.map NetPacket.wire)) :
    processMerged process packet fuel pos m =
      processMerged process packet (fuel - group.length) packet.size (unpackAll process m group) := by
  have hlength : packet.size - pos = (encodeEntries (group.map NetPacket.wire)).length := by
    rw [← h, length_readBytes _ _ _ (by have := packet.size_le; omega)]
  induction group generalizing fuel pos m with
  | nil =>
    rw [List.map_nil, encodeEntries_nil, List.length_nil] at hlength
    have hend : pos = packet.size := by omega
    rw [hend]
    rfl
  | cons q group ih =>
    obtain ⟨hq, hgroup⟩ := List.forall_mem_cons.mp hg
    obtain ⟨fuel, rfl⟩ : ∃ k, fuel = k + 1 := ⟨fuel - 1, by rw [List.length_cons] at hfuel; omega⟩
    rw [List.map_cons] at h hlength
    rw [encodeEntries_cons, List.length_append, length_encodeEntry, NetPacket.length_wire] at hlength
    obtain ⟨hsize, hbytes, hrest⟩ := readBytes_encodeEntries
      (by rw [NetPacket.length_wire]; exact hq.size_lt) h
    rw [NetPacket.length_wire] at hsize hbytes hrest
    have hvalue : packet.getValueAt pos 2 = q.size := hsize
    have hbuffer : packet.size ≤ packet.bufferSize := packet.size_le
    have hfits : ¬ sizeSub packet.bufferSize (pos + 2) < q.size := by
      rw [sizeSub_of_le hb (by omega)]
      omega
    have hverify : (m.unpacked q).verify = true :=
      (NetPacket.verify_write_wire (m.poolGetPacket_size _) hq.size_pos).trans hq.verify
    rw [processMerged, if_neg (by omega)]
    dsimp only
    rw [hvalue, if_neg hfits, hbytes]
    change (if (!(m.unpacked q).verify) = true then _ else
      processMerged process packet fuel _ (process _ (m.unpacked q))) = _
    rw [hverify, if_neg (by decide)]
    rw [ih hgroup (by omega) (by rw [List.length_cons] at hfuel; omega) _ (by
      rw [← hrest]
      congr 1
      omega) (by omega), List.length_cons, Nat.add_sub_add_right]
    rfl

/-- A merged packet is unpacked into the packets of its group, in their order, and the loop stops at
its end. -/
theorem processMerged_mergedGroup (process : NetManager → NetPacket → NetManager)
    {packet : NetPacket} (hb : packet.bufferSize < 2 ^ 64) {group : List NetPacket}
    (hg : ∀ q ∈ group, Unpackable q) (hw : packet.wire = mergedGroup group) (m : NetManager) :
    processMerged process packet packet.size headerSize m =
        processMerged process packet (packet.size - group.length) packet.size
          (unpackAll process m group) ∧
      processMerged process packet packet.size headerSize m = unpackAll process m group := by
  have hsize : packet.size = headerSize + (encodeEntries (group.map NetPacket.wire)).length := by
    rw [← NetPacket.length_wire, hw, mergedGroup, List.length_cons, Nat.add_comm, headerSize]
  have hle := length_le_encodeEntries (group.map NetPacket.wire)
  rw [List.length_map] at hle
  have hrun := processMerged_entries process hb hg
    (show headerSize ≤ packet.size by omega) (show group.length ≤ packet.size by omega) m (by
      have hdrop := congrArg (List.drop headerSize) hw
      rw [NetPacket.wire, List.drop_take] at hdrop
      exact hdrop)
  refine ⟨hrun, hrun.trans ?_⟩
  cases packet.size - group.length with
  | zero => rfl
  | succ fuel => rw [processMerged, if_pos le_rfl]

/-- The merge buffer of a peer holds a group of packets. -/
structure Gathers (mtu : ℕ) (n : UInt8) (endpoint : NetAddress) (group : List NetPacket)
    (p : NetPeer) : Prop where
  mtu_eq : p.mtu = mtu
  number : p.connectNumber = n
  endpoint_eq : p.endpoint = endpoint
  mtu_pos : headerSize ≤ mtu
  mtu_le : mtu ≤ p.mergeData.bufferSize
  count : p.mergeCount = group.length
  pos : p.mergePos = (encodeEntries (group.map NetPacket.wire)).length
  fits : headerSize + p.mergePos ≤ mtu
  content : p.mergeData.data.take (headerSize + p.mergePos) = mergedGroup group

namespace Gathers

variable {mtu : ℕ} {n : UInt8} {endpoint : NetAddress} {group : List NetPacket} {p p' : NetPeer}
  {m : NetManager} {r : PeerRef}

theorem sameButState (h : Gathers mtu n endpoint group p) (hp : SameButState p p') :
    Gathers mtu n endpoint group p' := by
  obtain ⟨s, rfl⟩ := hp
  exact ⟨h.mtu_eq, h.number, h.endpoint_eq, h.mtu_pos, h.mtu_le, h.count, h.pos, h.fits, h.content⟩

theorem mergedBytes (h : Gathers mtu n endpoint group p) (hne : group ≠ []) :
    p.mergedBytes = groupBytes group := by
  rw [NetPeer.mergedBytes, h.count]
  rcases group with _ | ⟨q, _ | ⟨q', rest⟩⟩
  · exact absurd rfl hne
  · have hpos : p.mergePos = q.wire.length + 2 := by
      rw [h.pos]
      simp
    have hcontent := congrArg (List.drop (headerSize + 2)) h.content
    rw [if_neg (by simp), hpos, Nat.add_sub_cancel, readBytes, groupBytes]
    rw [hpos, List.drop_take] at hcontent
    have hlength : headerSize + (q.wire.length + 2) - (headerSize + 2) = q.wire.length := by omega
    rw [hlength] at hcontent
    rw [hcontent]
    simp [mergedGroup, encodeEntry, headerSize, leBytes]
  · rw [if_pos (by simp), readBytes, List.drop_zero, h.content]
    rfl

theorem mergePacket (h : Gathers mtu n endpoint group p) {packet : NetPacket}
    (hfits : p.mergePos + (headerSize + packet.size + 2) ≤ mtu) :
    Gathers mtu n endpoint (group ++ [packet]) (p.mergePacket packet) where
  mtu_eq := h.mtu_eq
  number := h.number
  endpoint_eq := h.endpoint_eq
  mtu_pos := h.mtu_pos
  mtu_le := by
    rw [NetPeer.mergePacket]
    simpa [NetPacket.copyFrom, NetPacket.setValueAt] using h.mtu_le
  count := by
    rw [NetPeer.mergePacket, List.length_append, List.length_singleton, ← h.count]
  pos := by
    rw [NetPeer.mergePacket, h.pos, List.map_append, encodeEntries_append, List.length_append]
    simp [Nat.add_assoc, NetPacket.length_wire]
  fits := by
    rw [NetPeer.mergePacket]
    dsimp only
    omega
  content := by
    have hbuffer : mtu ≤ p.mergeData.data.length := h.mtu_le
    have hwire : readBytes packet.data 0 packet.size = packet.wire := by
      rw [readBytes, List.drop_zero, NetPacket.wire]
    have hsize : (leBytes 2 packet.size).length = 2 := length_leBytes 2 _
    have hbehind := take_writeBytes p.mergeData.data (p.mergePos + headerSize)
      (leBytes 2 packet.size) (by rw [hsize]; omega)
    rw [hsize, Nat.add_comm p.mergePos, h.content, Nat.add_comm headerSize] at hbehind
    have hentry := take_writeBytes
      (writeBytes p.mergeData.data (p.mergePos + headerSize) (leBytes 2 packet.size))
      (p.mergePos + headerSize + 2) packet.wire
      (by rw [length_writeBytes, NetPacket.length_wire]; omega)
    rw [hbehind, NetPacket.length_wire] at hentry
    rw [NetPeer.mergePacket]
    dsimp only
    have hend : headerSize + (p.mergePos + packet.size + 2) =
        p.mergePos + headerSize + 2 + packet.size := by omega
    rw [hend, NetPacket.copyFrom, hwire]
    refine hentry.trans ?_
    rw [mergedGroup, mergedGroup, List.map_append, encodeEntries_append, List.cons_append,
      List.cons_append, List.map_singleton, encodeEntries_cons, encodeEntries_nil, encodeEntry,
      NetPacket.length_wire, List.append_nil, List.append_assoc]

theorem length_groupBytes (h : Gathers mtu n endpoint group p) (hne : group ≠ []) :
    (groupBytes group).length ≤ mtu := by
  have hfits := h.fits
  rw [h.pos] at hfits
  match group, hne with
  | [q], _ =>
    simp only [List.map_cons, List.map_nil, encodeEntries_cons, encodeEntries_nil, List.append_nil,
      length_encodeEntry] at hfits
    rw [groupBytes]
    omega
  | q :: q' :: rest, _ =>
    rw [groupBytes, mergedGroup, List.length_cons]
    · rw [headerSize] at hfits
      omega
    · simp

theorem empty (h : Gathers mtu n endpoint group p) :
    Gathers mtu n endpoint [] { p with mergePos := 0, mergeCount := 0 } where
  mtu_eq := h.mtu_eq
  number := h.number
  endpoint_eq := h.endpoint_eq
  mtu_pos := h.mtu_pos
  mtu_le := h.mtu_le
  count := rfl
  pos := rfl
  fits := h.mtu_pos
  content := by
    have hcontent := congrArg (List.take headerSize) h.content
    rwa [List.take_take, Nat.min_eq_left (Nat.le_add_right _ _)] at hcontent

end Gathers

/-- What `send_merged` makes of a group: nothing of an empty one. -/
def flushed (group : List NetPacket) : List (List NetPacket) :=
  if group = [] then [] else [group]

/-- A group as it is sent. -/
def groupDatagram (endpoint : NetAddress) (group : List NetPacket) : Datagram :=
  ⟨endpoint, groupBytes group⟩

section Send

variable {mtu : ℕ} {n : UInt8} {endpoint : NetAddress} {group : List NetPacket} {m : NetManager}
  {r : PeerRef}

theorem sendMerged_gathers (h : Gathers mtu n endpoint group (m.peerAt r)) :
    Gathers mtu n endpoint [] ((m.sendMerged r).peerAt r) ∧
      (m.sendMerged r).sent = m.sent ++ (flushed group).map (groupDatagram endpoint) := by
  rw [sendMerged]
  by_cases hg : group = []
  · subst hg
    have hcount : (m.peerAt r).mergeCount = 0 := h.count
    rw [if_pos hcount, flushed, if_pos rfl, List.map_nil, List.append_nil]
    exact ⟨h, rfl⟩
  · have hcount : ¬ (m.peerAt r).mergeCount = 0 := by
      rw [h.count, List.length_eq_zero_iff]
      exact hg
    obtain ⟨hpeer, hsent⟩ := m.sendRaw_frame (m.peerAt r).mergedBytes (m.peerAt r).endpoint r
    rw [if_neg hcount, flushed, if_neg hg]
    dsimp only
    rw [setPeer_self]
    refine ⟨(h.sameButState hpeer).empty, hsent.trans ?_⟩
    rw [h.mergedBytes hg, h.endpoint_eq]
    rfl

/-- Where a packet goes: behind what is held, in a datagram of its own, or into the buffer after
what was held is sent. -/
theorem sendUserData_gathers (h : Gathers mtu n endpoint group (m.peerAt r))
    (packet : NetPacket) :
    ∃ groups held, Gathers mtu n endpoint held ((m.sendUserData r packet).peerAt r) ∧
      (m.sendUserData r packet).sent = m.sent ++ groups.map (groupDatagram endpoint) ∧
      ((groups = [[packet.setConnectionNumber n]] ∧ held = group) ∨
        (groups = [] ∧ held = group ++ [packet.setConnectionNumber n]) ∨
        (groups = flushed group ∧ held = [packet.setConnectionNumber n])) := by
  rw [sendUserData]
  dsimp only
  rw [h.number, h.mtu_eq, NetPacket.size_setConnectionNumber]
  split
  · obtain ⟨hpeer, hsent⟩ := m.sendRaw_frame (packet.setConnectionNumber n).wire
      (m.peerAt r).endpoint r
    refine ⟨_, _, h.sameButState hpeer, hsent.trans ?_, .inl ⟨rfl, rfl⟩⟩
    rw [h.endpoint_eq]
    rfl
  · next hsmall =>
    rw [setPeer_self]
    split
    · obtain ⟨hempty, hsent⟩ := sendMerged_gathers h
      refine ⟨_, _, hempty.mergePacket ?_, hsent, .inr (.inr ⟨rfl, rfl⟩)⟩
      rw [hempty.pos, NetPacket.size_setConnectionNumber]
      simp only [List.map_nil, encodeEntries_nil, List.length_nil]
      omega
    · next hroom =>
      refine ⟨_, _, h.mergePacket ?_, (List.append_nil _).symm, .inr (.inl ⟨rfl, rfl⟩)⟩
      rw [NetPacket.size_setConnectionNumber]
      omega

/-- How a run of packets is divided: each goes into one group, in the order they were sent. -/
structure Divides (mtu : ℕ) (groups : List (List NetPacket)) (packets : List NetPacket) : Prop where
  perm : groups.flatten.Perm packets
  inOrder : ∀ g ∈ groups, g.Sublist packets
  fits : ∀ g ∈ groups, (groupBytes g).length ≤ mtu

@[simp] theorem flatten_flushed (group : List NetPacket) : (flushed group).flatten = group := by
  rw [flushed]
  split
  · next h => rw [h, List.flatten_nil]
  · exact List.flatten_singleton

theorem mem_flushed {g group : List NetPacket} : g ∈ flushed group ↔ g = group ∧ group ≠ [] := by
  rw [flushed]
  split
  · next h => simp [h]
  · next h => simp [h]

/-- The next packet is divided from the packets before it, is held with them, or is held alone. -/
theorem Divides.append {mtu : ℕ} {groups groups' : List (List NetPacket)}
    {held held' packets : List NetPacket} {packet : NetPacket}
    (h : Divides mtu (groups ++ flushed held) packets) (hsize : packet.size ≤ mtu)
    (hheld : held' ≠ [] → (groupBytes held').length ≤ mtu)
    (hcases : (groups' = [[packet]] ∧ held' = held) ∨ (groups' = [] ∧ held' = held ++ [packet]) ∨
      (groups' = flushed held ∧ held' = [packet])) :
    Divides mtu (groups ++ groups' ++ flushed held') (packets ++ [packet]) := by
  have hperm : (groups.flatten ++ (held ++ [packet])).Perm (packets ++ [packet]) := by
    have happend := h.perm.append_right [packet]
    rwa [List.flatten_append, flatten_flushed, List.append_assoc] at happend
  have hbefore : ∀ g ∈ groups ++ flushed held, g.Sublist (packets ++ [packet]) := fun g hg =>
    (h.inOrder g hg).trans (List.sublist_append_left _ _)
  have hlast : [packet].Sublist (packets ++ [packet]) := List.sublist_append_right _ _
  have hsingle : (groupBytes [packet]).length ≤ mtu := by
    rwa [groupBytes, NetPacket.length_wire]
  have hfits : ∀ g, g ∈ flushed held' → (groupBytes g).length ≤ mtu := by
    intro g hg
    obtain ⟨rfl, hne⟩ := mem_flushed.mp hg
    exact hheld hne
  rcases hcases with ⟨rfl, rfl⟩ | ⟨rfl, rfl⟩ | ⟨rfl, rfl⟩
  · constructor
    · rw [List.flatten_append, List.flatten_append, flatten_flushed, List.flatten_singleton,
        List.append_assoc]
      exact (List.perm_append_comm.append_left _).trans hperm
    · intro g hg
      simp only [List.mem_append, List.mem_singleton] at hg
      rcases hg with (hg | rfl) | hg
      · exact hbefore g (List.mem_append_left _ hg)
      · exact hlast
      · exact hbefore g (List.mem_append_right _ hg)
    · intro g hg
      simp only [List.mem_append, List.mem_singleton] at hg
      rcases hg with (hg | rfl) | hg
      · exact h.fits g (List.mem_append_left _ hg)
      · exact hsingle
      · exact hfits g hg
  · constructor
    · rwa [List.append_nil, List.flatten_append, flatten_flushed]
    · intro g hg
      rw [List.append_nil, List.mem_append, mem_flushed] at hg
      rcases hg with hg | ⟨rfl, -⟩
      · exact hbefore g (List.mem_append_left _ hg)
      · by_cases hne : held = []
        · rw [hne]
          exact hlast
        · exact (h.inOrder held (List.mem_append_right _ (mem_flushed.mpr ⟨rfl, hne⟩))).append_right _
    · intro g hg
      rw [List.append_nil, List.mem_append] at hg
      exact hg.elim (fun hg => h.fits g (List.mem_append_left _ hg)) (hfits g)
  · constructor
    · rw [List.flatten_append, List.flatten_append, flatten_flushed, flatten_flushed,
        List.append_assoc]
      exact hperm
    · intro g hg
      rw [List.mem_append, mem_flushed] at hg
      rcases hg with hg | ⟨rfl, -⟩
      · exact hbefore g hg
      · exact hlast
    · intro g hg
      rw [List.mem_append] at hg
      exact hg.elim (h.fits g) (hfits g)

/-- The application's packets, one after the other. -/
def sendAll (m : NetManager) (r : PeerRef) (packets : List NetPacket) : NetManager :=
  packets.foldl (fun m packet => m.sendUserData r packet) m

theorem sendAll_gathers (h : Gathers mtu n endpoint [] (m.peerAt r)) {packets : List NetPacket}
    (hsize : ∀ packet ∈ packets, packet.size ≤ mtu) :
    ∃ groups held, Gathers mtu n endpoint held ((m.sendAll r packets).peerAt r) ∧
      (m.sendAll r packets).sent = m.sent ++ groups.map (groupDatagram endpoint) ∧
      Divides mtu (groups ++ flushed held) (packets.map fun p => p.setConnectionNumber n) := by
  induction packets using List.reverseRecOn with
  | nil =>
    exact ⟨[], [], h, (List.append_nil _).symm, ⟨.refl _, by simp [flushed], by simp [flushed]⟩⟩
  | append_singleton packets packet ih =>
    obtain ⟨hbefore, hlast⟩ := List.forall_mem_append.mp hsize
    obtain ⟨groups, held, hheld, hsent, hdivides⟩ := ih hbefore
    obtain ⟨groups', held', hheld', hsent', hcases⟩ :=
      sendUserData_gathers hheld packet
    have hrun : m.sendAll r (packets ++ [packet]) = (m.sendAll r packets).sendUserData r packet :=
      List.foldl_concat ..
    refine ⟨groups ++ groups', held', hrun ▸ hheld', ?_, ?_⟩
    · rw [hrun, hsent', hsent, List.map_append, List.append_assoc]
    · rw [List.map_append, List.map_singleton]
      exact hdivides.append (hlast packet (List.mem_singleton_self _))
        hheld'.length_groupBytes hcases

/-- With no packet held, the merge buffer is that of an empty group. -/
theorem gathers_empty (hm : Consistent m) (hr : r < m.peerCount)
    (hmtu : (m.peerAt r).mtu ∈ possibleMtu) (hcount : (m.peerAt r).mergeCount = 0) :
    Gathers (m.peerAt r).mtu (m.peerAt r).connectNumber (m.peerAt r).endpoint [] (m.peerAt r) := by
  have hw := hm.wellFormed r hr
  have hbounds : ∀ mtu ∈ possibleMtu, headerSize ≤ mtu ∧ mtu ≤ maxPacketSize := by decide
  obtain ⟨hle, hmax⟩ := hbounds _ hmtu
  have hpos : (m.peerAt r).mergePos = 0 := hw.mergeEmpty hcount
  refine ⟨rfl, rfl, rfl, hle, hmax.trans hw.mergeBuffer, hcount, hpos, by omega, ?_⟩
  have hbyte : (m.peerAt r).mergeData.byte 0 = UInt8.ofNat PacketProperty.merged.code :=
    hw.merge.byte_eq
  have hlength := (m.peerAt r).mergeData.bufferSize_pos
  rw [NetPacket.bufferSize] at hlength
  rw [NetPacket.byte, List.getD_eq_getElem?_getD, List.getElem?_eq_getElem hlength,
    Option.getD_some] at hbyte
  rw [hpos, headerSize, Nat.add_zero, List.take_one, List.head?_eq_getElem?,
    List.getElem?_eq_getElem hlength, hbyte]
  rfl

end Send

/-- What a peer makes of a merged packet whose connection number is its own: it handles the packets
of the group one after the other, each with the bytes that were merged, up to the end. -/
structure UnpacksTo (bytes : Bytes) (group : List NetPacket) : Prop where
  merged : headerProperty bytes = .merged
  size_eq : bytes.length = headerSize + (group.map fun q => 2 + q.size).sum
  wire : ∀ q ∈ group, ∀ m : NetManager, (m.unpacked q).wire = q.wire
  handled : ∀ (process : NetManager → NetPacket → NetManager) (m : NetManager) (r : PeerRef)
    (packet : NetPacket), packet.wire = bytes → packet.bufferSize < 2 ^ 64 →
    (m.peerAt r).isConnected = true → packet.connectionNumber = (m.peerAt r).connectNumber →
    let m' := m.setPeer r { m.peerAt r with timeSinceLastPacket := 0 }
    processMerged process packet packet.size headerSize m' =
        processMerged process packet (packet.size - group.length) packet.size
          (unpackAll process m' group) ∧
      m.processPacketWith process r packet = (unpackAll process m' group).poolRecycle packet

/-- The writes of `send_user_data` into the merge buffer end inside of it. -/
def WritesInside (m : NetManager) (r : PeerRef) (packet : NetPacket) : Prop :=
  let p := m.peerAt r
  let mergedPacketSize := headerSize + packet.size + 2
  p.mtu ≤ mergedPacketSize + sizeTreshold ∨
    let p := (if p.mtu < p.mergePos + mergedPacketSize then m.sendMerged r else m).peerAt r
    p.mergePos + mergedPacketSize ≤ p.mergeData.bufferSize

/-- Packets that are sent one after the other, and then flushed, arrive as they are. -/
structure MergeRoundTrip (m : NetManager) (r : PeerRef) (packets : List NetPacket) : Prop where
  emitted : ∃ groups : List (List NetPacket),
    ((m.sendAll r packets).sendMerged r).sent =
        m.sent ++ groups.map (groupDatagram (m.peerAt r).endpoint) ∧
      Divides (m.peerAt r).mtu groups
        (packets.map fun p => p.setConnectionNumber (m.peerAt r).connectNumber) ∧
      ∀ g ∈ groups, 1 < g.length → UnpacksTo (groupBytes g) g
  inBuffer : ∀ before packet after, packets = before ++ packet :: after →
    (m.sendAll r before).WritesInside r packet

theorem groupBytes_of_length {group : List NetPacket} (h : 1 < group.length) :
    groupBytes group = mergedGroup group := by
  match group, h with
  | _ :: _ :: _, _ => rfl

theorem headerProperty_mergedGroup (group : List NetPacket) :
    headerProperty (mergedGroup group) = .merged := by
  rw [headerProperty, headerByte, mergedGroup, List.getD_cons_zero]
  decide

theorem unpacksTo_mergedGroup {group : List NetPacket} (hg : ∀ q ∈ group, Unpackable q) :
    UnpacksTo (mergedGroup group) group where
  merged := headerProperty_mergedGroup group
  size_eq := by
    rw [mergedGroup, List.length_cons, Nat.add_comm, headerSize, encodeEntries, List.length_flatMap,
      List.map_map]
    congr 3
    funext q
    simp [NetPacket.length_wire, Nat.add_comm]
  wire := fun q _ m => m.unpacked_wire q
  handled := by
    intro process m r packet hwire hb hconnected hnumber
    obtain ⟨hrun, hgroup⟩ := processMerged_mergedGroup process hb hg hwire
      (m.setPeer r { m.peerAt r with timeSinceLastPacket := 0 })
    have hsize : 1 ≤ packet.size := by
      rw [← NetPacket.length_wire, hwire, mergedGroup, List.length_cons]
      omega
    have hproperty : packet.property = .merged := by
      rw [← NetPacket.headerProperty_wire packet hsize, hwire, headerProperty_mergedGroup]
    refine ⟨hrun, ?_⟩
    rw [processPacketWith]
    simp only [hconnected, hproperty, hnumber]
    simp [hgroup]

theorem writesInside {mtu : ℕ} {n : UInt8} {endpoint : NetAddress} {group : List NetPacket}
    {m : NetManager} {r : PeerRef} (h : Gathers mtu n endpoint group (m.peerAt r))
    (packet : NetPacket) : m.WritesInside r packet := by
  rw [WritesInside]
  dsimp only
  rw [h.mtu_eq]
  by_cases hsmall : mtu ≤ headerSize + packet.size + 2 + sizeTreshold
  · exact .inl hsmall
  · refine .inr ?_
    split
    · have hempty := (sendMerged_gathers h).1
      have hpos := hempty.pos
      have hbuffer := hempty.mtu_le
      simp only [List.map_nil, encodeEntries_nil, List.length_nil] at hpos
      omega
    · have hbuffer := h.mtu_le
      omega

/-- Whatever packets of at least a byte are sent, each is emitted once, and what was merged is taken
apart into the same packets. -/
theorem mergeRoundTrip {m : NetManager} {r : PeerRef} (hm : Consistent m) (hr : r < m.peerCount)
    (hmtu : (m.peerAt r).mtu ∈ possibleMtu) (hcount : (m.peerAt r).mergeCount = 0)
    (hnumber : (m.peerAt r).connectNumber.toNat < maxConnectionNumber) {packets : List NetPacket}
    (hp : ∀ packet ∈ packets,
      packet.verify = true ∧ 1 ≤ packet.size ∧ packet.size ≤ (m.peerAt r).mtu) :
    MergeRoundTrip m r packets := by
  have hempty := gathers_empty hm hr hmtu hcount
  have hmax : (m.peerAt r).mtu < 65536 := by
    have hbounds : ∀ mtu ∈ possibleMtu, mtu < 65536 := by decide
    exact hbounds _ hmtu
  constructor
  · obtain ⟨groups, held, hheld, hsent, hdivides⟩ :=
      sendAll_gathers hempty (fun packet h => (hp packet h).2.2)
    refine ⟨groups ++ flushed held, ?_, hdivides, fun g hg hlength => ?_⟩
    · rw [(sendMerged_gathers hheld).2, hsent, List.append_assoc, ← List.map_append]
    · rw [groupBytes_of_length hlength]
      refine unpacksTo_mergedGroup (fun q hq => ?_)
      obtain ⟨packet, hpacket, rfl⟩ := List.mem_map.mp ((hdivides.inOrder g hg).subset hq)
      obtain ⟨hverify, hpos, hle⟩ := hp packet hpacket
      exact ⟨(NetPacket.verify_setConnectionNumber _ _ hnumber).trans hverify, hpos,
        hle.trans_lt hmax⟩
  · rintro before packet after rfl
    have hbefore : ∀ packet ∈ before, packet.size ≤ (m.peerAt r).mtu := fun q hq =>
      (hp q (List.mem_append_left _ hq)).2.2
    obtain ⟨groups, held, hheld, -⟩ := sendAll_gathers hempty hbefore
    exact writesInside hheld packet

/-- A packet of one byte, and one of none that `verify` takes for a packet. -/
def headerOnly : NetPacket := (NetPacket.empty.resize 1).setProperty .unreliable
def nothing : NetPacket := (NetPacket.empty.resize 0).setProperty .empty

theorem mergeRoundTrip_connectedClient :
    MergeRoundTrip connectedClient 0 [headerOnly, headerOnly] :=
  mergeRoundTrip (consistent_of_reachable connectedClient_reachable) (by decide +kernel)
    (by decide +kernel) (by decide +kernel) (by decide +kernel) (by decide +kernel)

theorem length_sent_unpackAll (addr : NetAddress) (group : List NetPacket) (m : NetManager) :
    (unpackAll (fun m packet => m.logSent ⟨addr, packet.wire⟩) m group).sent.length =
      m.sent.length + group.length := by
  induction group generalizing m with
  | nil => rfl
  | cons packet group ih =>
    have hsent : (m.poolGetPacket packet.size).2.sent = m.sent := (m.poolGetPacket_aside _).sent
    refine (ih _).trans ?_
    change ((m.poolGetPacket packet.size).2.sent ++ [_]).length + group.length = _
    rw [hsent, List.length_append, List.length_singleton, List.length_cons]
    omega

/-- A packet without a byte is merged, and is not found when the merged packet is taken apart. -/
theorem not_always_mergeRoundTrip :
    ¬ ∀ (m : NetManager) (r : PeerRef) (packets : List NetPacket), Consistent m →
      r < m.peerCount → (m.peerAt r).mtu ∈ possibleMtu → (m.peerAt r).mergeCount = 0 →
      (m.peerAt r).connectNumber.toNat < maxConnectionNumber →
      (∀ packet ∈ packets, packet.verify = true ∧ packet.size ≤ (m.peerAt r).mtu) →
      MergeRoundTrip m r packets := by
  intro h
  obtain ⟨groups, hsent, hdivides, hunpack⟩ :=
    (h connectedClient 0 [headerOnly, nothing] (consistent_of_reachable connectedClient_reachable)
      (by decide +kernel) (by decide +kernel) (by decide +kernel) (by decide +kernel)
      (by decide +kernel)).emitted
  generalize hfinal : ((connectedClient.sendAll 0 [headerOnly, nothing]).sendMerged 0).sent = final
    at hsent
  have hlength : groups.length = 1 := by
    have hlengths := congrArg List.length hsent
    rw [List.length_append, List.length_map] at hlengths
    have hbefore : connectedClient.sent.length = 1 := by decide +kernel
    have hafter : final.length = 2 := by
      rw [← hfinal]
      decide +kernel
    omega
  obtain ⟨g, rfl⟩ := List.length_eq_one_iff.mp hlength
  have hg : g.length = 2 := by simpa using hdivides.perm.length_eq
  have hbytes : (final.map Datagram.bytes).getLastD [] = groupBytes g := by
    rw [hsent, List.map_append, List.map_singleton, List.map_singleton, List.getLastD_concat]
    rfl
  have hhandled := ((hunpack g (List.mem_singleton_self _) (by omega)).handled
    (fun m packet => m.logSent ⟨⟨2, 1, 2, 0⟩, packet.wire⟩) connectedClient 0
    (.received (groupBytes g)) (NetPacket.wire_received _)
    (by rw [← hbytes, ← hfinal]; decide +kernel) (by decide +kernel)
    (by rw [← hbytes, ← hfinal]; decide +kernel)).2
  have hlengths := congrArg (fun m => m.sent.length) hhandled
  dsimp only at hlengths
  rw [(poolRecycle_aside _ _).sent, length_sent_unpackAll, hg, ← hbytes, ← hfinal] at hlengths
  revert hlengths
  decide +kernel

end NetManager

end LiteNet.Manager
