import LiteNet.Library.Chunks
import LiteNet.Manager.ChannelAddress

/-! # Splitting messages and putting them together

`send_internal` cuts a long message into fragments, and the receiver holds them until
the last one is there. What travels between the two is described once, as a fragment
of a message.
-/

namespace LiteNet.Manager
open Library Wire Channels

/-- The packet is the fragment `part` of `total` of the message `fragmentId`, with these bytes. -/
structure Fragment (fragmentId total part : ℕ) (bytes : Bytes) (p : NetPacket) : Prop where
  fragmented : p.isFragmented = true
  id : p.fragmentId = fragmentId
  part : p.fragmentPart = part
  total : p.totalFragments = total
  size : p.size = fragmentedHeaderTotalSize + bytes.length
  payload : readBytes p.data fragmentedHeaderTotalSize bytes.length = bytes

/-- On its way the packet is given a sequence number, a channel and a connection number; what
follows them stays, and so does the mark. -/
structure ArrivesOn (idx : UInt8) (p q : NetPacket) : Prop where
  size : q.size = p.size
  fragmented : q.isFragmented = p.isFragmented
  bytes : ∀ i, channeledHeaderSize ≤ i → i < p.size → q.data[i]? = p.data[i]?
  channel : q.channelId = idx

theorem ArrivesOn.readBytes {idx : UInt8} {p q : NetPacket} (h : ArrivesOn idx p q) {pos n : ℕ}
    (hpos : channeledHeaderSize ≤ pos) (hend : pos + n ≤ p.size) :
    Library.readBytes q.data pos n = Library.readBytes p.data pos n := by
  apply List.ext_getElem?
  intro i
  rw [getElem?_readBytes, getElem?_readBytes]
  split
  · apply h.bytes <;> omega
  · rfl

theorem Fragment.arrives {fragmentId total part : ℕ} {bytes : Bytes} {idx : UInt8}
    {p q : NetPacket} (h : Fragment fragmentId total part bytes p) (ha : ArrivesOn idx p q) :
    Fragment fragmentId total part bytes q := by
  have hsize : fragmentedHeaderTotalSize ≤ p.size := by
    rw [h.size]
    exact Nat.le_add_right _ _
  have hfield : ∀ pos, channeledHeaderSize ≤ pos → pos + 2 ≤ fragmentedHeaderTotalSize →
      q.getValueAt pos 2 = p.getValueAt pos 2 := by
    intro pos hle hlt
    rw [NetPacket.getValueAt, NetPacket.getValueAt, readLE, readLE, ha.readBytes hle (by omega)]
  constructor
  · rw [ha.fragmented, h.fragmented]
  · rw [← h.id]
    exact hfield 4 (by decide) (by decide)
  · rw [← h.part]
    exact hfield 6 (by decide) (by decide)
  · rw [← h.total]
    exact hfield 8 (by decide) (by decide)
  · rw [ha.size, h.size]
  · rw [ha.readBytes (by decide) (by rw [h.size]), h.payload]

theorem arrivesOn_received {p : NetPacket} (hp : channeledHeaderSize ≤ p.size) (sequence : ℕ)
    (idx : UInt8) {number : UInt8} (hn : number.toNat < maxConnectionNumber) :
    ArrivesOn idx p (.received
      (((p.setSequence sequence).setChannelId idx).setConnectionNumber number).wire) := by
  have hsize : (((p.setSequence sequence).setChannelId idx).setConnectionNumber number).size =
      p.size := rfl
  have hheader : channeledHeaderSize = 4 := rfl
  constructor
  · simp [NetPacket.length_wire]
  · have hbyte : ((p.setSequence sequence).setChannelId idx).byte 0 = p.byte 0 := by
      rw [NetPacket.setChannelId, NetPacket.byte_setByte_of_ne _ _ (by decide)]
      exact NetPacket.byte_write_of_disjoint _ _ _ _ (.inl one_pos)
    rw [NetPacket.isFragmented, NetPacket.byte_received _ (by omega), ← NetPacket.isFragmented,
      NetPacket.isFragmented_setConnectionNumber _ _ hn, NetPacket.isFragmented, hbyte,
      NetPacket.isFragmented]
  · intro i hle hlt
    rw [NetPacket.getElem?_received _ (by rw [NetPacket.length_wire, hsize]; exact hlt),
      NetPacket.getElem?_wire _ (by rw [hsize]; exact hlt)]
    change (writeBytes (writeBytes (writeBytes p.data 1 (leBytes 2 sequence)) 3 [idx]) 0 [_])[i]? = _
    rw [getElem?_writeBytes, getElem?_writeBytes, getElem?_writeBytes]
    simp only [List.length_singleton, length_leBytes]
    rw [if_neg (by omega), if_neg (by omega), if_neg (by omega)]
  · rw [NetPacket.channelId_received _ (by omega), NetPacket.channelId_setConnectionNumber,
      NetPacket.channelId_setChannelId]

/-- The base class of a channel. -/
def NetChannel.base : NetChannel → NetBaseChannel
  | .reliable ch => ch.base
  | .sequenced ch => ch.base

/-- A channel that takes packets puts one behind its queue, and asks for nothing but its turn. -/
theorem NetChannel.addToQueue_base {ch : NetChannel} (h : ch.base.canEnqueue = true)
    (packet : NetPacket) :
    (ch.addToQueue packet).1.base.canEnqueue = true ∧
      (ch.addToQueue packet).1.base.outgoingQueue = ch.base.outgoingQueue ++ [packet] ∧
      ∀ c ∈ (ch.addToQueue packet).2, c = .addToReliableChannelSendQueue := by
  have hbase : ∀ b : NetBaseChannel, b.canEnqueue = true →
      (b.addToQueue packet).1.canEnqueue = true ∧
        (b.addToQueue packet).1.outgoingQueue = b.outgoingQueue ++ [packet] ∧
        ∀ c ∈ (b.addToQueue packet).2, c = .addToReliableChannelSendQueue := by
    intro b hb
    rw [NetBaseChannel.addToQueue]
    simp only [hb, Bool.not_true, Bool.false_eq_true, if_false]
    refine ⟨by simp, by simp, ?_⟩
    rw [NetBaseChannel.addToPeerChannelSendQueue]
    split <;> simp
  cases ch with
  | reliable ch => exact hbase ch.base h
  | sequenced ch => exact hbase ch.base h

namespace NetManager

/-- The channel `idx` of a peer takes packets, and holds these to send. -/
def Queues (m : NetManager) (r : PeerRef) (idx : UInt8) (queue : List NetPacket) : Prop :=
  ∃ ch, (m.peerAt r).channels idx = some ch ∧ ch.base.canEnqueue = true ∧
    ch.base.outgoingQueue = queue

section Splitting

variable {m m' : NetManager} {r : PeerRef} {idx : UInt8} {queue : List NetPacket}

theorem Queues.congr (h : m.Queues r idx queue) (hp : m'.peerAt = m.peerAt) :
    m'.Queues r idx queue := by
  rw [Queues, hp]
  exact h

theorem addToQueue_queues (h : m.Queues r idx queue) (packet : NetPacket) :
    (m.addToQueue r idx packet).Queues r idx (queue ++ [packet]) := by
  obtain ⟨ch, hch, hopen, hqueue⟩ := h
  obtain ⟨hopen', hqueue', hcalls⟩ := NetChannel.addToQueue_base hopen packet
  have hstart : (m.setPeer r { m.peerAt r with
      channels := Function.update (m.peerAt r).channels idx
        (some (ch.addToQueue packet).1) }).Queues r idx (queue ++ [packet]) := by
    refine ⟨_, ?_, hopen', by rw [hqueue', hqueue]⟩
    simp
  rw [addToQueue]
  simp only [hch]
  rw [applyCalls]
  generalize (ch.addToQueue packet).2 = calls at hcalls
  generalize m.setPeer r _ = m' at hstart ⊢
  induction calls generalizing m' with
  | nil => exact hstart
  | cons call calls ih =>
    obtain ⟨hcall, hrest⟩ := List.forall_mem_cons.mp hcalls
    refine ih hrest _ ?_
    subst hcall
    obtain ⟨ch', hch', hopen', hqueue'⟩ := hstart
    refine ⟨ch', ?_, hopen', hqueue'⟩
    simpa [applyCall] using hch'

theorem fragment_fragmentHeader {packet : NetPacket} {bytes data : Bytes}
    (hsize : packet.size = fragmentedHeaderTotalSize + bytes.length)
    {fragmentId part total : ℕ} (hid : fragmentId < 65536) (hpart : part < 65536)
    (htotal : total < 65536) (userData : ℕ) {pos : ℕ}
    (hbytes : readBytes data pos bytes.length = bytes) :
    Fragment fragmentId total part bytes
      ((fragmentHeader packet userData fragmentId part total).copyFrom data pos
        fragmentedHeaderTotalSize bytes.length) := by
  have hbuffer : fragmentedHeaderTotalSize + bytes.length ≤ packet.data.length := by
    rw [← hsize]
    exact packet.size_le
  have htotalSize : fragmentedHeaderTotalSize = 10 := rfl
  have hroom : ∀ i, i + 2 ≤ 10 → i + 2 ≤ packet.bufferSize := by
    intro i hi
    rw [NetPacket.bufferSize]
    omega
  -- the packet after each of the writes
  let start : NetPacket := { packet.setProperty .channeled with userData := userData }
  have hstart : start.bufferSize = packet.bufferSize := NetPacket.write_bufferSize ..
  let withId := start.setFragmentId fragmentId
  have hwithId : withId.bufferSize = packet.bufferSize := by simp [withId, NetPacket.setFragmentId,
    NetPacket.setValueAt, hstart]
  let withPart := withId.setFragmentPart part
  have hwithPart : withPart.bufferSize = packet.bufferSize := by simp [withPart,
    NetPacket.setFragmentPart, NetPacket.setValueAt, hwithId]
  let withTotal := withPart.setTotalFragments total
  have hwithTotal : withTotal.bufferSize = packet.bufferSize := by simp [withTotal,
    NetPacket.setTotalFragments, NetPacket.setValueAt, hwithPart]
  let marked := withTotal.markFragmented
  have hmarked : marked.bufferSize = packet.bufferSize := by simp [marked,
    NetPacket.markFragmented, NetPacket.setByte, hwithTotal]
  have hfield : ∀ i, 1 ≤ i → i + 2 ≤ 10 → ∀ copied : Bytes,
      (marked.write fragmentedHeaderTotalSize copied).getValueAt i 2 = withTotal.getValueAt i 2 := by
    intro i hi hle copied
    exact (marked.getValueAt_write_of_disjoint fragmentedHeaderTotalSize copied (.inl hle)).trans
      (withTotal.getValueAt_write_of_disjoint 0 _ (.inr hi))
  constructor
  · change (marked.write fragmentedHeaderTotalSize _).isFragmented = true
    rw [NetPacket.isFragmented, NetPacket.byte_write_of_disjoint _ _ _ _ (.inl (by decide))]
    simp only [marked, NetPacket.markFragmented]
    rw [NetPacket.byte_setByte _ _ _ (NetPacket.bufferSize_pos _), or_and_distrib]
    have hmask : ∀ b : UInt8, ((b &&& 0x80) ||| ((0x80 : UInt8) &&& 0x80) != 0) = true :=
      forall_uint8 (by decide +kernel)
    exact hmask _
  · refine (hfield 4 (by decide) (by decide) _).trans ?_
    refine (NetPacket.getValueAt_write_of_disjoint _ _ _ (.inl (by decide))).trans ?_
    refine (NetPacket.getValueAt_write_of_disjoint _ _ _ (.inl (by decide))).trans ?_
    refine (NetPacket.getValueAt_setValueAt _ _ ?_).trans (Nat.mod_eq_of_lt hid)
    rw [hstart]
    exact hroom 4 (by decide)
  · refine (hfield 6 (by decide) (by decide) _).trans ?_
    refine (NetPacket.getValueAt_write_of_disjoint _ _ _ (.inl (by decide))).trans ?_
    refine (NetPacket.getValueAt_setValueAt _ _ ?_).trans (Nat.mod_eq_of_lt hpart)
    rw [hwithId]
    exact hroom 6 (by decide)
  · refine (hfield 8 (by decide) (by decide) _).trans ?_
    refine (NetPacket.getValueAt_setValueAt _ _ ?_).trans (Nat.mod_eq_of_lt htotal)
    rw [hwithPart]
    exact hroom 8 (by decide)
  · exact hsize
  · change readBytes (writeBytes marked.data fragmentedHeaderTotalSize
      (readBytes data pos bytes.length)) fragmentedHeaderTotalSize bytes.length = bytes
    rw [hbytes]
    apply readBytes_writeBytes_self
    change _ ≤ marked.bufferSize
    rw [hmarked]
    exact hbuffer

/-- The loop queues the fragments of the message from `partIdx` on. -/
theorem sendFragments_queues {data : Bytes} {offset size : ℕ} (hdata : offset + size ≤ data.length)
    (userData : ℕ) {fragmentId n total : ℕ} (hid : fragmentId < 65536) (htotal : total < 65536)
    (fuel : ℕ) {partIdx : ℕ} (hfuel : partIdx + fuel ≤ total) (h : m.Queues r idx queue) :
    ∃ fragments : List NetPacket,
      (sendFragments r idx data offset userData fragmentId n total fuel partIdx
        (size - partIdx * n) m).Queues r idx (queue ++ fragments) ∧
      fragments.length = fuel ∧
      ∀ i p, fragments[i]? = some p →
        Fragment fragmentId total (partIdx + i)
          (chunk n (readBytes data offset size) (partIdx + i)) p := by
  induction fuel generalizing partIdx queue m with
  | zero => exact ⟨[], by simpa [sendFragments] using h, rfl, by simp⟩
  | succ fuel ih =>
    have hlength : (if n < size - partIdx * n then n else size - partIdx * n) =
        min n (size - partIdx * n) := by
      rw [Nat.min_def]
      split <;> split <;> omega
    have hchunk : chunk n (readBytes data offset size) partIdx =
        readBytes data (offset + partIdx * n) (min n (size - partIdx * n)) := by
      rw [chunk, readBytes_readBytes]
    have hchunkLength : (chunk n (readBytes data offset size) partIdx).length =
        min n (size - partIdx * n) := by
      rw [hchunk, readBytes, List.length_take, List.length_drop]
      omega
    rw [sendFragments]
    simp only [hlength]
    rw [← hchunkLength]
    have hgot := m.poolGetPacket_aside (channeledHeaderSize +
      (chunk n (readBytes data offset size) partIdx).length + fragmentHeaderSize)
    have hsize := m.poolGetPacket_size (channeledHeaderSize +
      (chunk n (readBytes data offset size) partIdx).length + fragmentHeaderSize)
    generalize m.poolGetPacket _ = got at hgot hsize ⊢
    have hfragment : Fragment fragmentId total partIdx (chunk n (readBytes data offset size) partIdx)
        ((fragmentHeader got.1 userData fragmentId partIdx total).copyFrom data
          (offset + partIdx * n) fragmentedHeaderTotalSize
          (chunk n (readBytes data offset size) partIdx).length) := by
      apply fragment_fragmentHeader _ hid (by omega) htotal
      · rw [hchunkLength, ← hchunk]
      · rw [hsize, fragmentedHeaderTotalSize]
        omega
    have hrest : size - partIdx * n - (chunk n (readBytes data offset size) partIdx).length =
        size - (partIdx + 1) * n := by
      rw [hchunkLength, Nat.succ_mul]
      omega
    rw [hrest]
    obtain ⟨fragments, hqueues, hcount, hfragments⟩ :=
      ih (show partIdx + 1 + fuel ≤ total by omega) (addToQueue_queues (h.congr hgot.peerAt) _)
    refine ⟨_ :: fragments, by rwa [List.append_assoc] at hqueues, by rw [List.length_cons, hcount],
      fun i p hp => ?_⟩
    cases i with
    | zero =>
      cases hp
      exact hfragment
    | succ i =>
      rw [Nat.add_succ, ← Nat.succ_add]
      exact hfragments i p hp

end Splitting

/-- A call of `send_internal`. -/
structure Call where
  sender : NetManager
  peer : PeerRef
  data : Bytes
  offset : ℕ
  size : ℕ
  channelNumber : UInt8
  method : DeliveryMethod
  userData : ℕ

namespace Call

variable (c : Call)

def idx : UInt8 := sendIndex c.channelNumber c.method

def payload : Bytes := readBytes c.data c.offset c.size

def dataSize : ℕ := (c.sender.peerAt c.peer).mtu - channeledHeaderSize - fragmentHeaderSize

def total : ℕ := c.size / c.dataSize + if c.size % c.dataSize = 0 then 0 else 1

def fragmentId : ℕ := ((c.sender.peerAt c.peer).fragmentId + 1) % 65536

def result : NetManager :=
  c.sender.sendInternal c.peer c.data c.offset c.size c.channelNumber c.method c.userData

/-- The same with a checked access of `m_channels`. -/
def resultChecked : Option NetManager :=
  c.sender.sendInternalChecked c.peer c.data c.offset c.size c.channelNumber c.method c.userData

/-- The sender when the loop over the fragments starts. -/
def start : NetManager :=
  (c.sender.setPeer c.peer ((c.sender.peerAt c.peer).createChannel c.idx)).setPeer c.peer
    { (c.sender.peerAt c.peer).createChannel c.idx with
      fragmentId := ((c.sender.peerAt c.peer).createChannel c.idx).fragmentId + 1 }

/-- What the channel holds to send. -/
def queue (m : NetManager) : List NetPacket :=
  match (m.peerAt c.peer).channels c.idx with
  | none => []
  | some ch => ch.base.outgoingQueue

/-- The packets that the call puts behind the queue of the channel. -/
def fragments : List NetPacket := (c.queue c.result).drop (c.queue c.sender).length

/-- The call is one that splits its data and reports no error. -/
structure Splits : Prop where
  connected : (c.sender.peerAt c.peer).connectionState = .connected
  channel : c.channelNumber.toNat < (c.sender.peerAt c.peer).channelCount
  channels : channelTypeCount ∣ (c.sender.peerAt c.peer).channelCount
  reliable : c.method = .reliableOrdered ∨ c.method = .reliableUnordered
  mtu : (c.sender.peerAt c.peer).mtu ∈ possibleMtu
  inside : c.offset + c.size ≤ c.data.length
  long : (c.sender.peerAt c.peer).mtu < c.size + channeledHeaderSize
  count : c.total < 65535
  takes : ∀ ch, (c.sender.peerAt c.peer).channels c.idx = some ch → ch.base.canEnqueue = true

variable {c}

theorem Splits.dataSize_pos (h : c.Splits) : 0 < c.dataSize := by
  have hle : ∀ mtu ∈ possibleMtu, 508 ≤ mtu := by decide
  have hmtu := hle _ h.mtu
  rw [dataSize, channeledHeaderSize, fragmentHeaderSize]
  omega

theorem Splits.length_payload (h : c.Splits) : c.payload.length = c.size :=
  length_readBytes _ _ _ h.inside

theorem Splits.payload_le (h : c.Splits) : c.payload.length ≤ c.total * c.dataSize := by
  rw [h.length_payload]
  exact le_div_mul h.dataSize_pos c.size

theorem Splits.total_pos (h : c.Splits) : 0 < c.total := by
  have hle := h.payload_le
  have hlong := h.long
  have hmtu : ∀ mtu ∈ possibleMtu, 508 ≤ mtu := by decide
  have hmtu' := hmtu _ h.mtu
  rw [h.length_payload] at hle
  rw [channeledHeaderSize] at hlong
  apply Nat.pos_of_ne_zero
  intro hzero
  rw [hzero] at hle
  omega

theorem createChannel_queues (h : c.Splits) :
    ∃ ch, ((c.sender.peerAt c.peer).createChannel c.idx).channels c.idx = some ch ∧
      ch.base.canEnqueue = true ∧ ch.base.outgoingQueue = c.queue c.sender := by
  have htakes := h.takes
  rw [NetPeer.createChannel, queue]
  cases hch : (c.sender.peerAt c.peer).channels c.idx with
  | some ch => exact ⟨ch, hch, htakes ch hch, rfl⟩
  | none =>
    refine ⟨.create c.idx, by simp, ?_⟩
    rw [NetChannel.create]
    split <;> exact ⟨rfl, rfl⟩

theorem Splits.result_eq (h : c.Splits) :
    c.result = sendFragments c.peer c.idx c.data c.offset c.userData c.fragmentId c.dataSize c.total
      c.total 0 c.size c.start := by
  have hnot : ¬ ((c.sender.peerAt c.peer).connectionState ≠ .connected ∨
      (c.sender.peerAt c.peer).channelCount ≤ c.channelNumber.toNat) := by
    simp [h.connected, h.channel]
  have hsplit : ¬ (c.method ≠ .reliableOrdered ∧ c.method ≠ .reliableUnordered) := by
    rcases h.reliable with hr | hr <;> simp [hr]
  have hreliable : c.method ≠ .unreliable := by
    rcases h.reliable with hr | hr <;> simp [hr]
  have hheader : PacketProperty.channeled.getHeaderSize = channeledHeaderSize := rfl
  have hcount : ¬ 65535 ≤ c.total := not_le.mpr h.count
  have hlong := h.long
  have hcreate : (c.sender.peerAt c.peer).mtu =
      ((c.sender.peerAt c.peer).createChannel c.idx).mtu ∧ (c.sender.peerAt c.peer).fragmentId =
        ((c.sender.peerAt c.peer).createChannel c.idx).fragmentId := by
    rw [NetPeer.createChannel]
    split <;> exact ⟨rfl, rfl⟩
  rw [fragmentId, hcreate.2]
  rw [total, dataSize] at hcount ⊢
  rw [hcreate.1] at hlong hcount ⊢
  rw [idx, sendIndex] at hlong hcount
  rw [result, sendInternal]
  simp only [if_neg hnot, if_neg hreliable, hheader]
  rw [if_pos hlong, if_neg hsplit, if_neg hcount]
  rfl

theorem Splits.fragments_spec (h : c.Splits) :
    c.fragments.length = c.total ∧ ∀ i p, c.fragments[i]? = some p →
      Fragment c.fragmentId c.total i (chunk c.dataSize c.payload i) p := by
  obtain ⟨ch, hch, hopen, hqueue⟩ := createChannel_queues h
  have hstart : c.start.Queues c.peer c.idx (c.queue c.sender) :=
    ⟨ch, by rw [start, setPeer_self]; exact hch, hopen, hqueue⟩
  have hid : c.fragmentId < 65536 := Nat.mod_lt _ (by decide)
  have htotal : c.total < 65536 := h.count.trans (by decide)
  obtain ⟨queued, hqueues, hlength, hfragments⟩ := @sendFragments_queues _ _ _ _ _ _ _ h.inside
    c.userData _ c.dataSize _ hid htotal c.total 0 (Nat.zero_add c.total).le hstart
  rw [Nat.zero_mul, Nat.sub_zero] at hqueues
  have heq : c.fragments = queued := by
    obtain ⟨ch', hch', -, hqueue'⟩ := hqueues
    have hafter : c.queue c.result = c.queue c.sender ++ queued := by
      rw [h.result_eq, queue, hch']
      exact hqueue'
    rw [fragments, hafter, List.drop_left]
  rw [heq]
  refine ⟨hlength, fun i p hp => ?_⟩
  have hfragment := hfragments i p hp
  rwa [Nat.zero_add] at hfragment

end Call

/-- A packet of the fragment `part` as it arrives. -/
structure Call.Piece (c : Call) (part : ℕ) (q : NetPacket) : Prop where
  fragment : Fragment c.fragmentId c.total part (chunk c.dataSize c.payload part) q
  channel : q.channelId = c.idx

/-- What is held of a message when the fragments `arrived` are there. -/
structure Call.Table (c : Call) (arrived : List ℕ) (held : IncomingFragments) : Prop where
  channelId : held.channelId = c.idx
  receivedCount : held.receivedCount = arrived.length
  totalSize : held.totalSize = (arrived.map fun i => (chunk c.dataSize c.payload i).length).sum
  length : held.fragments.length = c.total
  there : ∀ i ∈ arrived, ∃ q, held.fragments[i]? = some (some q) ∧ c.Piece i q
  missing : ∀ i < c.total, i ∉ arrived → held.fragments[i]? = some none

/-- The part of a fragment that is data. -/
def fragmentData (q : NetPacket) : Bytes :=
  readBytes q.data fragmentedHeaderTotalSize (q.size - fragmentedHeaderTotalSize)

theorem length_fragmentData (q : NetPacket) :
    (fragmentData q).length = q.size - fragmentedHeaderTotalSize := by
  have hle := q.size_le
  rw [fragmentData, readBytes, List.length_take, List.length_drop]
  omega

namespace Call

variable {c : Call} {arrived : List ℕ} {held : IncomingFragments} {part : ℕ} {q : NetPacket}

theorem Piece.data (h : c.Piece part q) : fragmentData q = chunk c.dataSize c.payload part := by
  rw [fragmentData, h.fragment.size, Nat.add_sub_cancel_left, h.fragment.payload]

theorem Table.empty (c : Call) : c.Table [] ⟨List.replicate c.total none, 0, 0, c.idx⟩ where
  channelId := rfl
  receivedCount := rfl
  totalSize := rfl
  length := List.length_replicate
  there := by simp
  missing := by
    intro i hi _
    simp [hi]

theorem Table.set (h : c.Table arrived held) (hq : c.Piece part q) (hpart : part < c.total)
    (hnew : part ∉ arrived) :
    c.Table (arrived ++ [part]) {
      fragments := held.fragments.set part (some q)
      receivedCount := held.receivedCount + 1
      totalSize := held.totalSize + (q.size - fragmentedHeaderTotalSize)
      channelId := held.channelId } where
  channelId := h.channelId
  receivedCount := by simp [h.receivedCount]
  totalSize := by
    rw [h.totalSize, ← length_fragmentData, hq.data]
    simp
  length := by simp [h.length]
  there := by
    intro i hi
    rcases List.mem_append.mp hi with hi | hi
    · obtain ⟨p, hp, hpiece⟩ := h.there i hi
      have hne : part ≠ i := by
        rintro rfl
        exact hnew hi
      exact ⟨p, by simp [hne, hp], hpiece⟩
    · rw [List.mem_singleton] at hi
      subst hi
      exact ⟨q, by simp [h.length, hpart], hq⟩
  missing := by
    intro i hi hnot
    simp only [List.mem_append, List.mem_singleton, not_or] at hnot
    have hne : part ≠ i := fun he => hnot.2 he.symm
    simp [hne, h.missing i hi hnot.1]

/-- With all fragments there, what is held is the message. -/
theorem Table.complete (h : c.Table arrived held) (hc : c.Splits)
    (hall : arrived.Perm (List.range c.total)) :
    held.totalSize = c.payload.length ∧ ∃ qs : List NetPacket, held.fragments = qs.map some ∧
      qs.flatMap fragmentData = c.payload := by
  have hthere : ∀ i < c.total, ∃ q, held.fragments[i]? = some (some q) ∧ c.Piece i q := by
    intro i hi
    exact h.there i (hall.mem_iff.mpr (List.mem_range.mpr hi))
  have : Nonempty NetPacket := ⟨.empty⟩
  choose! q hq hpiece using hthere
  refine ⟨?_, (List.range c.total).map q, ?_, ?_⟩
  · rw [h.totalSize, (hall.map _).sum_eq, sum_length_chunk hc.payload_le]
  · apply List.ext_getElem?
    intro i
    by_cases hi : i < c.total
    · simp [hq i hi, hi]
    · have hlength := h.length
      simp [hi]
      omega
  · rw [List.flatMap_map, ← flatMap_chunk_all hc.payload_le]
    apply List.flatMap_congr
    intro i hi
    exact (hpiece i (List.mem_range.mp hi)).data

end Call

/-- With room for all of them, the fragments are copied behind each other. -/
theorem assemble_all (qs : List NetPacket) {pos : ℕ} {result : NetPacket} (m : NetManager)
    (hroom : pos + (qs.flatMap fragmentData).length ≤ result.bufferSize) :
    ∃ assembled, (assemble (qs.map some) pos result m).2 = some assembled ∧
      assembled.size = result.size ∧
      assembled.data.take (pos + (qs.flatMap fragmentData).length) =
        result.data.take pos ++ qs.flatMap fragmentData := by
  induction qs generalizing pos result m with
  | nil => exact ⟨result, rfl, rfl, by simp⟩
  | cons q qs ih =>
    rw [List.flatMap_cons, List.length_append] at hroom
    have hlength := length_fragmentData q
    have hsize : q.size ≤ q.bufferSize := q.size_le
    have hnot : ¬ (result.bufferSize < pos + (q.size - fragmentedHeaderTotalSize) ∨
        q.bufferSize < q.size) := by omega
    have hwrite := take_writeBytes result.data pos (fragmentData q) (by
      change _ ≤ result.bufferSize
      omega)
    have hrest : pos + (fragmentData q).length + (qs.flatMap fragmentData).length ≤
        (result.write pos (fragmentData q)).bufferSize := by
      rw [NetPacket.write_bufferSize]
      omega
    obtain ⟨assembled, hassembled, hsize', htake⟩ := ih (m.poolRecycle q) hrest
    refine ⟨assembled, ?_, hsize', ?_⟩
    · rw [List.map_cons, assemble]
      rw [hlength] at hassembled
      simp only [if_neg hnot]
      exact hassembled
    · rw [List.flatMap_cons, List.length_append, ← Nat.add_assoc, htake]
      change (writeBytes result.data pos (fragmentData q)).take _ ++ _ = _
      rw [hwrite, List.append_assoc]

/-- The event that hands a message to the application. -/
structure Delivers (payload : Bytes) (channelNumber : UInt8) (e : NetEvent) : Prop where
  type : e.type = .receive
  channelNumber : e.channelNumber = channelNumber
  payload : ∃ reader, e.reader = some reader ∧ reader.rest = payload

theorem createReceiveEvent_eq (m : NetManager) (packet : NetPacket) (method : DeliveryMethod)
    (channelNumber : UInt8) (headerSize : ℕ) (endpoint : NetAddress) :
    m.createReceiveEvent packet method channelNumber headerSize endpoint = m.pushEvent {
      type := .receive
      deliveryMethod := method
      channelNumber := channelNumber
      peer := m.tryGetPeer endpoint
      readerSource := some packet
      reader := some ⟨packet.data, packet.size, headerSize⟩ } := rfl

theorem deliverFragments_delivers (m : NetManager) (method : DeliveryMethod)
    (channelNumber : UInt8) {held : IncomingFragments} {payload : Bytes}
    (hsize : held.totalSize = payload.length) {qs : List NetPacket}
    (hfragments : held.fragments = qs.map some) (hpayload : qs.flatMap fragmentData = payload)
    (endpoint : NetAddress) :
    (m.deliverFragments method channelNumber held endpoint).peerAt = m.peerAt ∧
      ∃ e, (m.deliverFragments method channelNumber held endpoint).events = m.events ++ [e] ∧
        Delivers payload channelNumber e := by
  have hgot := m.poolGetPacket_size held.totalSize
  have hpool := m.poolGetPacket_aside held.totalSize
  rw [deliverFragments]
  generalize m.poolGetPacket held.totalSize = got at hgot hpool ⊢
  have haside := hpool.trans (assemble_aside held.fragments 0 got.1 got.2)
  have hlength : (qs.flatMap fragmentData).length = got.1.size := by
    rw [hpayload, hgot, hsize]
  have hroom : 0 + (qs.flatMap fragmentData).length ≤ got.1.bufferSize := by
    rw [hlength, Nat.zero_add]
    exact got.1.size_le
  obtain ⟨assembled, hassembled, hsize', htake⟩ := assemble_all qs got.2 hroom
  rw [hlength, hpayload, Nat.zero_add, List.take_zero, List.nil_append] at htake
  rw [← hfragments] at hassembled
  simp only [hassembled]
  generalize (assemble held.fragments 0 got.1 got.2).1 = m' at haside ⊢
  have hrest : (⟨assembled.data, assembled.size, 0⟩ : NetDataReader).rest = payload := by
    rw [NetDataReader.rest, readBytes, List.drop_zero, Nat.sub_zero, hsize', htake]
  rw [createReceiveEvent_eq, pushEvent, haside.events]
  exact ⟨haside.peerAt, _, rfl, rfl, rfl, _, rfl, hrest⟩

/-- What is held under the fragment id of a message: nothing before the first fragment and after
the last one. -/
def Call.Holds (c : Call) (arrived : List ℕ) (held : Option IncomingFragments) : Prop :=
  if arrived = [] ∨ arrived.length = c.total then held = none
  else ∃ table, held = some table ∧ c.Table arrived table

theorem addReliablePacket_piece {c : Call} (hc : c.Splits) {arrived : List ℕ} {part : ℕ}
    {q : NetPacket} {m : NetManager} {r : PeerRef} (hq : c.Piece part q)
    (hheld : c.Holds arrived ((m.peerAt r).holdedFragments c.fragmentId))
    (hnodup : (arrived ++ [part]).Nodup) (hlt : ∀ i ∈ arrived ++ [part], i < c.total)
    (method : DeliveryMethod) :
    c.Holds (arrived ++ [part])
        (((m.addReliablePacket r method q).peerAt r).holdedFragments c.fragmentId) ∧
      (∀ id ≠ c.fragmentId, ((m.addReliablePacket r method q).peerAt r).holdedFragments id =
        (m.peerAt r).holdedFragments id) ∧
      if (arrived ++ [part]).length = c.total then
        ∃ e, (m.addReliablePacket r method q).events = m.events ++ [e] ∧
          Delivers c.payload (UInt8.ofNat (c.idx.toNat / channelTypeCount)) e
      else (m.addReliablePacket r method q).events = m.events := by
  have hcount : (arrived ++ [part]).length ≤ c.total := by
    have hsub := hnodup.subperm (fun i hi => List.mem_range.mpr (hlt i hi))
    simpa using hsub.length_le
  have hnew : part ∉ arrived := by
    have hdisjoint := (List.nodup_append.mp hnodup).2.2
    exact fun hmem => hdisjoint part hmem part (List.mem_singleton_self _) rfl
  have hpart : part < c.total := hlt part (by simp)
  obtain ⟨table, hget, htable⟩ : ∃ table, ((m.peerAt r).holdedFragments c.fragmentId).getD
      ⟨List.replicate c.total none, 0, 0, c.idx⟩ = table ∧ c.Table arrived table := by
    rw [Call.Holds] at hheld
    by_cases harrived : arrived = []
    · rw [if_pos (.inl harrived)] at hheld
      rw [hheld, harrived]
      exact ⟨_, rfl, .empty c⟩
    · have hshort : arrived.length ≠ c.total := by
        rw [List.length_append, List.length_singleton] at hcount
        omega
      rw [if_neg (by simp [harrived, hshort])] at hheld
      obtain ⟨table, heq, htable⟩ := hheld
      exact ⟨table, by rw [heq, Option.getD_some], htable⟩
  have hset := htable.set hq hpart hnew
  have hfree : ¬ (table.fragments.length ≤ part ∨ (table.fragments.getD part none).isSome = true ∨
      c.idx ≠ table.channelId) := by
    have hmissing := htable.missing part hpart hnew
    rw [htable.channelId, htable.length, List.getD_eq_getElem?_getD, hmissing]
    simp [hpart]
  have hwhen : (table.receivedCount + 1 = (table.fragments.set part (some q)).length) ↔
      (arrived ++ [part]).length = c.total := by
    simp [htable.receivedCount, htable.length]
  rw [addReliablePacket]
  simp only [hq.fragment.fragmented, Bool.not_true, Bool.false_eq_true, if_false, hq.fragment.id,
    hq.fragment.part, hq.fragment.total, hq.channel, hget, if_neg hfree, ne_eq, hwhen]
  by_cases hlast : (arrived ++ [part]).length = c.total
  · have hall : (arrived ++ [part]).Perm (List.range c.total) :=
      (hnodup.subperm (fun i hi => List.mem_range.mpr (hlt i hi))).perm_of_length_le (by
        rw [hlast, List.length_range])
    obtain ⟨hsize, qs, hfragments, hpayload⟩ := hset.complete hc hall
    obtain ⟨hpeer, e, hevents, hdelivers⟩ := (m.holdFragments r c.fragmentId
      none).deliverFragments_delivers method (UInt8.ofNat (c.idx.toNat / channelTypeCount)) hsize
        hfragments hpayload (m.peerAt r).endpoint
    rw [if_neg (not_not.mpr hlast), if_pos hlast, hpeer, Call.Holds, if_pos (.inr hlast)]
    refine ⟨?_, ?_, e, hevents, hdelivers⟩
    · simp [holdFragments]
    · intro id hid
      simp [holdFragments, hid]
  · rw [if_pos hlast, if_neg hlast, Call.Holds, if_neg (by simpa using hlast)]
    refine ⟨⟨_, ?_, hset⟩, ?_, rfl⟩
    · simp [holdFragments]
    · intro id hid
      simp [holdFragments, hid]

/-- A fragment of a call that reaches the peer, from a channel with this method. -/
structure Arrival where
  call : Call
  part : ℕ
  method : DeliveryMethod
  packet : NetPacket

def receiveFragments (m : NetManager) (r : PeerRef) (arrivals : List Arrival) : NetManager :=
  arrivals.foldl (fun m a => m.addReliablePacket r a.method a.packet) m

/-- The fragments of a call that are among the arrivals. -/
def Call.arrived (c : Call) (arrivals : List Arrival) : List ℕ :=
  (arrivals.filter fun a => a.call.fragmentId = c.fragmentId).map Arrival.part

/-- Every fragment of every call arrives once, in any order. -/
structure Interleaves (calls : List Call) (arrivals : List Arrival) : Prop where
  splits : ∀ c ∈ calls, c.Splits
  ids : (calls.map Call.fragmentId).Nodup
  once : ∀ c ∈ calls, (c.arrived arrivals).Perm (List.range c.fragments.length)
  sent : ∀ a ∈ arrivals, a.call ∈ calls ∧
    ∃ p, a.call.fragments[a.part]? = some p ∧ ArrivesOn a.call.idx p a.packet

/-- Every message is delivered once, with its last fragment and under this channel number, and
nothing is held of it afterwards. -/
structure ReassemblesAs (number : Call → UInt8) (m : NetManager) (r : PeerRef) (calls : List Call)
    (arrivals : List Arrival) : Prop where
  steps : ∀ before a after, arrivals = before ++ a :: after →
    let m' := m.receiveFragments r before
    let m'' := m'.addReliablePacket r a.method a.packet
    if ∀ b ∈ after, b.call.fragmentId ≠ a.call.fragmentId then
      (∃ e, m''.events = m'.events ++ [e] ∧ Delivers a.call.payload (number a.call) e) ∧
        (m''.peerAt r).holdedFragments a.call.fragmentId = none
    else m''.events = m'.events
  delivered : ∃ order es, (m.receiveFragments r arrivals).events = m.events ++ es ∧
    order.Perm calls ∧ List.Forall₂ (fun c e => Delivers c.payload (number c) e) order es
  cleared : ∀ c ∈ calls, ((m.receiveFragments r arrivals).peerAt r).holdedFragments c.fragmentId = none

section Interleaved

variable {calls : List Call} {arrivals before after : List Arrival} {a : Arrival} {c : Call}
  {m : NetManager} {r : PeerRef}

theorem Call.arrived_append (c : Call) (before after : List Arrival) :
    c.arrived (before ++ after) = c.arrived before ++ c.arrived after := by
  simp [arrived]

theorem Call.arrived_self (a : Arrival) : a.call.arrived [a] = [a.part] := by
  simp [arrived]

theorem Call.arrived_other (h : a.call.fragmentId ≠ c.fragmentId) : c.arrived [a] = [] := by
  simp [arrived, h]

theorem Call.arrived_eq_nil : c.arrived after = [] ↔
    ∀ b ∈ after, b.call.fragmentId ≠ c.fragmentId := by
  simp [arrived]

/-- The channel number that the receiver computes. -/
def Call.indexNumber (c : Call) : UInt8 := UInt8.ofNat (c.idx.toNat / channelTypeCount)

namespace Interleaves

theorem eq_of_id (h : Interleaves calls arrivals) {c c' : Call} (hc : c ∈ calls) (hc' : c' ∈ calls)
    (hid : c.fragmentId = c'.fragmentId) : c = c' :=
  List.inj_on_of_nodup_map h.ids hc hc' hid

theorem arrived_perm (h : Interleaves calls arrivals) (hc : c ∈ calls) :
    (c.arrived arrivals).Perm (List.range c.total) := by
  have honce := h.once c hc
  rwa [(h.splits c hc).fragments_spec.1] at honce

theorem arrived_part (h : Interleaves calls (before ++ after)) (hc : c ∈ calls) :
    (c.arrived before).Nodup ∧ ∀ i ∈ c.arrived before, i < c.total := by
  have hperm := h.arrived_perm hc
  rw [Call.arrived_append] at hperm
  constructor
  · have hnodup := hperm.nodup_iff.mpr List.nodup_range
    exact (List.nodup_append.mp hnodup).1
  · intro i hi
    exact List.mem_range.mp (hperm.mem_iff.mp (List.mem_append_left _ hi))

/-- All fragments of a call are there exactly when none is to come. -/
theorem complete_iff (h : Interleaves calls (before ++ after)) (hc : c ∈ calls) :
    (c.arrived before).length = c.total ↔ ∀ b ∈ after, b.call.fragmentId ≠ c.fragmentId := by
  have hlength := (h.arrived_perm hc).length_eq
  rw [Call.arrived_append, List.length_append, List.length_range] at hlength
  rw [← Call.arrived_eq_nil, ← List.length_eq_zero_iff]
  omega

theorem piece (h : Interleaves calls arrivals) (ha : a ∈ arrivals) :
    a.call.Piece a.part a.packet := by
  obtain ⟨hc, p, hp, harrives⟩ := h.sent a ha
  have hfragment := (h.splits a.call hc).fragments_spec.2 a.part p hp
  exact ⟨hfragment.arrives harrives, harrives.channel⟩

theorem step (h : Interleaves calls (before ++ a :: after))
    (hheld : ∀ c ∈ calls, c.Holds (c.arrived before) ((m.peerAt r).holdedFragments c.fragmentId)) :
    (∀ c ∈ calls, c.Holds (c.arrived (before ++ [a]))
        (((m.addReliablePacket r a.method a.packet).peerAt r).holdedFragments c.fragmentId)) ∧
      if (a.call.arrived (before ++ [a])).length = a.call.total then
        ∃ e, (m.addReliablePacket r a.method a.packet).events = m.events ++ [e] ∧
          Delivers a.call.payload a.call.indexNumber e
      else (m.addReliablePacket r a.method a.packet).events = m.events := by
  have hmem : a ∈ before ++ a :: after := by simp
  have hcall := (h.sent a hmem).1
  have hpiece := h.piece hmem
  rw [List.append_cons] at h
  obtain ⟨hnodup, hlt⟩ := h.arrived_part hcall
  rw [Call.arrived_append, Call.arrived_self] at hnodup hlt
  obtain ⟨hself, hothers, hevents⟩ := addReliablePacket_piece (h.splits _ hcall) hpiece
    (hheld _ hcall) hnodup hlt a.method
  constructor
  · intro c hc
    rw [Call.arrived_append]
    by_cases hid : a.call.fragmentId = c.fragmentId
    · rw [← h.eq_of_id hcall hc hid, Call.arrived_self]
      exact hself
    · rw [Call.arrived_other hid, List.append_nil, hothers _ (Ne.symm hid)]
      exact hheld c hc
  · rw [Call.arrived_append, Call.arrived_self]
    exact hevents

/-- After any part of the run, what is held of every message and which messages were delivered. -/
theorem run (h : Interleaves calls (before ++ after))
    (hm : ∀ c ∈ calls, (m.peerAt r).holdedFragments c.fragmentId = none) :
    (∀ c ∈ calls, c.Holds (c.arrived before)
        (((m.receiveFragments r before).peerAt r).holdedFragments c.fragmentId)) ∧
      ∃ order es, (m.receiveFragments r before).events = m.events ++ es ∧ order.Nodup ∧
        (∀ c, c ∈ order ↔ c ∈ calls ∧ (c.arrived before).length = c.total) ∧
        List.Forall₂ (fun c e => Delivers c.payload c.indexNumber e) order es := by
  induction before using List.reverseRecOn generalizing after with
  | nil =>
    refine ⟨fun c hc => ?_, [], [], by simp [receiveFragments], by simp, fun c => ?_, .nil⟩
    · rw [Call.Holds, if_pos (.inl rfl)]
      exact hm c hc
    · constructor
      · simp
      · rintro ⟨hc, htotal⟩
        have hpos := (h.splits c hc).total_pos
        rw [← htotal] at hpos
        exact absurd hpos (by simp [Call.arrived])
  | append_singleton before a ih =>
    rw [List.append_assoc] at h
    obtain ⟨hheld, order, es, hevents, hnodup, horder, hdelivers⟩ := ih h
    obtain ⟨hheld', hstep⟩ := h.step hheld
    have hcall := (h.sent a (by simp)).1
    have hrun : m.receiveFragments r (before ++ [a]) =
        (m.receiveFragments r before).addReliablePacket r a.method a.packet := List.foldl_concat ..
    have hother : ∀ c ∈ calls, c ≠ a.call → c.arrived (before ++ [a]) = c.arrived before := by
      intro c hc hne
      have hid : a.call.fragmentId ≠ c.fragmentId := fun hid => hne (h.eq_of_id hcall hc hid).symm
      rw [Call.arrived_append, Call.arrived_other hid, List.append_nil]
    have hlength : (a.call.arrived (before ++ [a])).length = (a.call.arrived before).length + 1 := by
      rw [Call.arrived_append, Call.arrived_self, List.length_append, List.length_singleton]
    have hbound : (a.call.arrived (before ++ [a])).length ≤ a.call.total := by
      rw [← List.append_assoc] at h
      obtain ⟨hnodup', hlt⟩ := h.arrived_part hcall
      have hsub := hnodup'.subperm (fun i hi => List.mem_range.mpr (hlt i hi))
      simpa using hsub.length_le
    rw [hrun]
    refine ⟨hheld', ?_⟩
    by_cases hlast : (a.call.arrived (before ++ [a])).length = a.call.total
    · rw [if_pos hlast] at hstep
      obtain ⟨e, he, hdeliver⟩ := hstep
      have hnot : a.call ∉ order := by
        intro hmem
        have htotal := ((horder a.call).mp hmem).2
        omega
      refine ⟨order ++ [a.call], es ++ [e], by rw [he, hevents, List.append_assoc], ?_, ?_, ?_⟩
      · exact hnodup.append (List.nodup_singleton _) (by simpa using hnot)
      · intro c
        rw [List.mem_append, List.mem_singleton, horder]
        by_cases hc : c = a.call
        · subst hc
          simp [hlast, hcall]
        · simp only [hc, or_false]
          apply and_congr_right
          intro hmem
          rw [hother c hmem hc]
      · exact List.rel_append hdelivers (.cons hdeliver .nil)
    · rw [if_neg hlast] at hstep
      refine ⟨order, es, by rw [hstep, hevents], hnodup, fun c => ?_, hdelivers⟩
      rw [horder]
      apply and_congr_right
      intro hmem
      by_cases hc : c = a.call
      · subst hc
        constructor
        · intro htotal
          omega
        · intro htotal
          exact absurd htotal hlast
      · rw [hother c hmem hc]

/-- Every message is put together, under the channel number of the index. -/
theorem reassembles (h : Interleaves calls arrivals)
    (hm : ∀ c ∈ calls, (m.peerAt r).holdedFragments c.fragmentId = none) :
    ReassemblesAs Call.indexNumber m r calls arrivals where
  steps := by
    rintro before a after rfl
    obtain ⟨hheld, -⟩ := h.run hm
    obtain ⟨hheld', hstep⟩ := h.step hheld
    have hcall := (h.sent a (by simp)).1
    have hiff : (a.call.arrived (before ++ [a])).length = a.call.total ↔
        ∀ b ∈ after, b.call.fragmentId ≠ a.call.fragmentId := by
      rw [List.append_cons] at h
      exact h.complete_iff hcall
    by_cases hlast : (a.call.arrived (before ++ [a])).length = a.call.total
    · have hnone := hheld' a.call hcall
      rw [Call.Holds, if_pos (.inr hlast)] at hnone
      rw [if_pos hlast] at hstep
      simp only [if_pos (hiff.mp hlast)]
      exact ⟨hstep, hnone⟩
    · rw [if_neg hlast] at hstep
      simp only [if_neg (mt hiff.mpr hlast)]
      exact hstep
  delivered := by
    rw [← List.append_nil arrivals] at h
    obtain ⟨-, order, es, hevents, hnodup, horder, hdelivers⟩ := h.run hm
    refine ⟨order, es, hevents, ?_, hdelivers⟩
    rw [List.perm_ext_iff_of_nodup hnodup (List.Nodup.of_map _ h.ids)]
    intro c
    rw [horder]
    apply and_iff_left_of_imp
    intro hc
    exact (h.complete_iff hc).mpr (by simp)
  cleared := by
    rw [← List.append_nil arrivals] at h
    intro c hc
    have hheld := (h.run hm).1 c hc
    have hlength := (h.complete_iff hc).mpr (by simp)
    rwa [Call.Holds, if_pos (.inr hlength)] at hheld

end Interleaves

theorem Call.Splits.method_ne (hc : c.Splits) : c.method ≠ .unreliable := by
  rcases hc.reliable with hr | hr <;> rw [hr] <;> decide

/-- The index holds a channel number below 64 only. -/
theorem Call.indexNumber_eq_iff (hc : c.Splits) :
    c.indexNumber = c.channelNumber ↔ c.channelNumber.toNat < 64 := by
  have hcode : c.method.code = 0 ∨ c.method.code = 2 := by
    rcases hc.reliable with hr | hr <;> rw [hr] <;> decide
  have htypes : channelTypeCount = 4 := rfl
  have hlt := c.channelNumber.toNat_lt
  rw [← UInt8.toNat_inj, indexNumber, idx, sendIndex, UInt8.toNat_ofNat', UInt8.toNat_ofNat',
    htypes]
  omega

/-- Below 64, a channel number is inside `m_channels` if there are so many channels of each type. -/
theorem Call.resultChecked_iff (hc : c.Splits) (hlt : c.channelNumber.toNat < 64) :
    c.resultChecked = some c.result ↔
      c.channelNumber.toNat < (c.sender.peerAt c.peer).channelCount / channelTypeCount := by
  have hindex := sendIndex_iff c.channelNumber hc.method_ne
    ((c.sender.peerAt c.peer).channelCount / channelTypeCount)
  rw [Nat.div_mul_cancel hc.channels] at hindex
  rw [resultChecked, sendInternalChecked_eq hc.connected hc.channel hc.method_ne, result]
  constructor
  · intro hsome
    split at hsome
    · next hinside =>
      by_contra hge
      -- the index of a number below 64 is not cut off
      have hwhole : (sendIndex c.channelNumber c.method).toNat =
          c.channelNumber.toNat * channelTypeCount + c.method.code := by
        have hcode : c.method.code < 4 := by
          rcases hc.reliable with hr | hr <;> rw [hr] <;> decide
        rw [sendIndex, UInt8.toNat_ofNat', channelTypeCount]
        omega
      have hcount := Nat.div_mul_cancel hc.channels
      rw [not_lt] at hge
      have hmul := Nat.mul_le_mul_right channelTypeCount hge
      omega
    · cases hsome
  · intro hinside
    exact if_pos (hindex.mpr ⟨hinside, hlt⟩).1

theorem exists_last {p : Arrival → Prop} (h : ∃ a ∈ arrivals, p a) :
    ∃ before a after, arrivals = before ++ a :: after ∧ p a ∧ ∀ b ∈ after, ¬ p b := by
  induction arrivals with
  | nil => simp at h
  | cons x arrivals ih =>
    by_cases hrest : ∃ a ∈ arrivals, p a
    · obtain ⟨before, a, after, harrivals, ha, hafter⟩ := ih hrest
      exact ⟨x :: before, a, after, by rw [harrivals, List.cons_append], ha, hafter⟩
    · push Not at hrest
      obtain ⟨a, ha, hp⟩ := h
      rcases List.mem_cons.mp ha with rfl | ha
      · exact ⟨[], a, arrivals, rfl, hp, hrest⟩
      · exact absurd hp (hrest a ha)

/-- A message that is delivered under its channel number has one below 64. -/
theorem channelNumber_lt (h : Interleaves calls arrivals)
    (hm : ∀ c ∈ calls, (m.peerAt r).holdedFragments c.fragmentId = none)
    (hnumber : ReassemblesAs Call.channelNumber m r calls arrivals) (hc : c ∈ calls) :
    c.channelNumber.toNat < 64 := by
  have hindex := h.reassembles hm
  have hsome : ∃ a ∈ arrivals, a.call.fragmentId = c.fragmentId := by
    by_contra hnone
    push Not at hnone
    have hlength := (h.arrived_perm hc).length_eq
    rw [Call.arrived_eq_nil.mpr hnone, List.length_range] at hlength
    exact absurd (h.splits c hc).total_pos (by simp [← hlength])
  obtain ⟨before, a, after, harrivals, hid, hafter⟩ := exists_last hsome
  have hcall := (h.sent a (by simp [harrivals])).1
  have hlast : ∀ b ∈ after, b.call.fragmentId ≠ a.call.fragmentId := by
    rw [hid]
    exact hafter
  have hstep := hnumber.steps before a after harrivals
  have hstep' := hindex.steps before a after harrivals
  simp only [if_pos hlast] at hstep hstep'
  obtain ⟨⟨e, he, hdelivers⟩, -⟩ := hstep
  obtain ⟨⟨e', he', hdelivers'⟩, -⟩ := hstep'
  rw [he, List.append_cancel_left_eq, List.singleton_inj] at he'
  rw [← Call.indexNumber_eq_iff (h.splits c hc), ← h.eq_of_id hcall hc hid,
    ← hdelivers.channelNumber, he', hdelivers'.channelNumber]

theorem ReassemblesAs.congr {number number' : Call → UInt8} (h : Interleaves calls arrivals)
    (hr : ReassemblesAs number m r calls arrivals) (hn : ∀ c ∈ calls, number c = number' c) :
    ReassemblesAs number' m r calls arrivals where
  steps := by
    intro before a after harrivals
    rw [← hn a.call (h.sent a (by simp [harrivals])).1]
    exact hr.steps before a after harrivals
  delivered := by
    obtain ⟨order, es, hevents, hperm, hdelivers⟩ := hr.delivered
    refine ⟨order, es, hevents, hperm, ?_⟩
    rw [List.forall₂_iff_zip] at hdelivers ⊢
    refine ⟨hdelivers.1, fun {c e} hmem => ?_⟩
    rw [← hn c (hperm.mem_iff.mp (List.of_mem_zip hmem).1)]
    exact hdelivers.2 hmem
  cleared := hr.cleared

/-- The calls stay inside `m_channels`, and what arrives of them, in any order, is put together to
the messages that were sent, each under its channel number, exactly when these are below the number
of channels of each type and below 64. -/
theorem reassembles_iff (h : Interleaves calls arrivals)
    (hm : ∀ c ∈ calls, (m.peerAt r).holdedFragments c.fragmentId = none) :
    (∀ c ∈ calls, c.resultChecked = some c.result) ∧
        ReassemblesAs Call.channelNumber m r calls arrivals ↔
      ∀ c ∈ calls, c.channelNumber.toNat < (c.sender.peerAt c.peer).channelCount / channelTypeCount ∧
        c.channelNumber.toNat < 64 := by
  constructor
  · rintro ⟨hchecked, hnumber⟩ c hc
    have hlt := channelNumber_lt h hm hnumber hc
    exact ⟨(Call.resultChecked_iff (h.splits c hc) hlt).mp (hchecked c hc), hlt⟩
  · intro hlt
    refine ⟨fun c hc => ?_, (h.reassembles hm).congr h fun c hc => ?_⟩
    · exact (Call.resultChecked_iff (h.splits c hc) (hlt c hc).2).mpr (hlt c hc).1
    · exact (Call.indexNumber_eq_iff (h.splits c hc)).mpr (hlt c hc).2

/-- A fragment as it arrives from a channel that gave it the number of its part. -/
def Call.arrival (c : Call) (part : ℕ) : Arrival where
  call := c
  part := part
  method := c.method
  packet := .received ((((c.fragments.getD part .empty).setSequence part).setChannelId
    c.idx).setConnectionNumber 0).wire

theorem interleaves_single {c : Call} (hc : c.Splits) {parts : List ℕ}
    (hparts : parts.Perm (List.range c.total)) : Interleaves [c] (parts.map c.arrival) where
  splits := by simpa using hc
  ids := by simp
  once := by
    intro c' hc'
    rw [List.mem_singleton.mp hc', hc.fragments_spec.1]
    have harrived : c.arrived (parts.map c.arrival) = parts := by
      simp [Call.arrived, Call.arrival, List.filter_map, Function.comp_def]
    rwa [harrived]
  sent := by
    intro a ha
    obtain ⟨part, hpart, rfl⟩ := List.mem_map.mp ha
    obtain ⟨hlength, hfragments⟩ := hc.fragments_spec
    have hlt : part < c.fragments.length := by
      rw [hlength]
      exact List.mem_range.mp (hparts.mem_iff.mp hpart)
    have hget := List.getElem?_eq_getElem hlt
    have hsize := (hfragments part _ hget).size
    have hgetD : c.fragments.getD part .empty = c.fragments[part] := by
      rw [List.getD_eq_getElem?_getD, hget, Option.getD_some]
    refine ⟨List.mem_singleton_self c, c.fragments[part], hget, ?_⟩
    rw [Call.arrival, hgetD]
    apply arrivesOn_received _ _ _ (by decide)
    rw [hsize]
    exact Nat.le_add_right_of_le (by decide)

/-- A client with 17 channels of each kind. -/
def wideClient : NetManager :=
  (({ NetManager.new (.const 5) (.const 0) (.const .ok) with channelsCount := 17 }.act
    (.connect ⟨2, 1, 2, 0⟩ [] 0)).act
      (.receive (NetConnectAcceptPacket.make 5 0 0).wire ⟨2, 1, 2, 0⟩))

/-- A message of its first peer. -/
def wideCall (data : Bytes) (channelNumber : UInt8) : Call where
  sender := wideClient
  peer := 0
  data := data
  offset := 0
  size := data.length
  channelNumber := channelNumber
  method := .reliableOrdered
  userData := 0

theorem wideClient_peer : (wideClient.peerAt 0).connectionState = .connected ∧
    (wideClient.peerAt 0).channelCount = 68 ∧ (wideClient.peerAt 0).mtu = 508 ∧
    (wideClient.peerAt 0).fragmentId = 0 := by
  decide +kernel

theorem wideClient_channels (idx : UInt8) : (wideClient.peerAt 0).channels idx = none := by
  have hnone : ∀ idx, ((wideClient.peerAt 0).channels idx).isNone = true :=
    forall_uint8 (by decide +kernel)
  exact Option.isNone_iff_eq_none.mp (hnone idx)

theorem total_wideCall {data : Bytes} (hd : data.length = 600) (channelNumber : UInt8) :
    (wideCall data channelNumber).total = 2 := by
  rw [Call.total, Call.dataSize]
  simp only [wideCall, wideClient_peer, hd, channeledHeaderSize, fragmentHeaderSize]
  rfl

theorem wideCall_splits {data : Bytes} (hd : data.length = 600) {channelNumber : UInt8}
    (h : channelNumber.toNat < 68) : (wideCall data channelNumber).Splits where
  connected := by simp [wideCall, wideClient_peer]
  channel := by simpa [wideCall, wideClient_peer] using h
  channels := by
    simp only [wideCall, wideClient_peer]
    decide
  reliable := .inl rfl
  mtu := by
    simp only [wideCall, wideClient_peer]
    decide
  inside := by simp [wideCall]
  long := by
    simp only [wideCall, wideClient_peer, hd]
    decide
  count := by
    rw [total_wideCall hd]
    decide
  takes := by
    intro ch hch
    simp [wideCall, wideClient_channels] at hch

theorem wideCall_interleaves (channelNumber : UInt8) (h : channelNumber.toNat < 68) :
    Interleaves [wideCall (List.replicate 600 7) channelNumber]
      ([1, 0].map (wideCall (List.replicate 600 7) channelNumber).arrival) := by
  have hd : (List.replicate 600 (7 : UInt8)).length = 600 := List.length_replicate
  generalize List.replicate 600 (7 : UInt8) = data at hd ⊢
  apply interleaves_single (wideCall_splits hd h)
  rw [total_wideCall hd]
  decide

theorem wideClient_holds (data : Bytes) (channelNumber : UInt8) :
    ∀ c ∈ [wideCall data channelNumber],
      (wideClient.peerAt 0).holdedFragments c.fragmentId = none := by
  have hnone : ((wideClient.peerAt 0).holdedFragments 1).isNone = true := by decide +kernel
  intro c hc
  rw [List.mem_singleton.mp hc]
  have hid : (wideCall data channelNumber).fragmentId = 1 := by
    simp [Call.fragmentId, wideCall, wideClient_peer]
  rw [hid]
  exact Option.isNone_iff_eq_none.mp hnone

theorem reassembles_iff_wideCall :
    (∀ c ∈ [wideCall (List.replicate 600 7) 3], c.resultChecked = some c.result) ∧
        ReassemblesAs Call.channelNumber wideClient 0 [wideCall (List.replicate 600 7) 3]
          ([1, 0].map (wideCall (List.replicate 600 7) 3).arrival) ↔
      ∀ c ∈ [wideCall (List.replicate 600 7) 3],
        c.channelNumber.toNat < (c.sender.peerAt c.peer).channelCount / channelTypeCount ∧
          c.channelNumber.toNat < 64 :=
  reassembles_iff (wideCall_interleaves 3 (by decide)) (wideClient_holds _ _)

/-- On channel number 64 a message is delivered under another channel number. -/
theorem not_always_reassembles :
    ¬ ∀ (m : NetManager) (r : PeerRef) (calls : List Call) (arrivals : List Arrival),
      Interleaves calls arrivals →
      (∀ c ∈ calls, (m.peerAt r).holdedFragments c.fragmentId = none) →
      ReassemblesAs Call.channelNumber m r calls arrivals := by
  intro h
  have hinterleaves := wideCall_interleaves 64 (by decide)
  have hholds := wideClient_holds (List.replicate 600 7) 64
  have hlt := channelNumber_lt hinterleaves hholds (h _ _ _ _ hinterleaves hholds)
    (List.mem_singleton_self _)
  have hnumber : ∀ data, (wideCall data 64).channelNumber = 64 := fun _ => rfl
  rw [hnumber] at hlt
  exact absurd hlt (by decide)

end Interleaved

end NetManager

end LiteNet.Manager
