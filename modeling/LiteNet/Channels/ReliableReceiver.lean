import LiteNet.Library.SelectiveRepeat
import LiteNet.Channels.Reliable

/-! # The receiving half of the reliable channel

The wrapped counters, the bitmap and the rings represent the receiver of selective
repeat. A packet that is at most half the sequence range old either changes no more
than the flags or is accepted, and the packets handed on are the ones that became
next in order (ordered) or the accepted one (unordered).
-/

namespace LiteNet.Channels
open Library Wire

/-- Room for the bitmap and no other size: the length of every acknowledgement. -/
def ackSize : ℕ := 13

def ackBits (p : NetPacket) : Ring Bool := fun k => testAckBit p k

private def ackBit (ackIdx : ℕ) : Fin 8 := ⟨ackIdx % bitsInByte, Nat.mod_lt _ (by decide)⟩

/-- Two indices of one byte agree when their bits do. -/
private theorem ackBit_eq_iff {j k : ℕ} (h : ackByte k = ackByte j) :
    ackBit j = ackBit k ↔ j = k := by
  simp only [ackBit, Fin.mk.injEq, ackByte, bitsInByte] at *
  omega

theorem three_lt_ackByte (j : ℕ) : 3 < ackByte j := by
  simp only [ackByte, channeledHeaderSize, bitsInByte]
  omega

section AckBits

variable {p : NetPacket} (hp : p.size = ackSize)
include hp

private theorem ackByte_lt {j : ℕ} (hj : j < windowSize) : ackByte j < p.size := by
  rw [hp]
  simp only [ackByte, ackSize, bitsInByte, channeledHeaderSize, windowSize, defaultWindowSize] at *
  omega

private theorem ackByte_lt_bufferSize {j : ℕ} (hj : j < windowSize) :
    ackByte j < p.bufferSize :=
  (ackByte_lt hp hj).trans_le p.size_le

/-- Writing the byte of one bit changes the other bits only as that byte does. -/
private theorem testAckBit_setByte {j k : ℕ} (hj : j < windowSize) (b : UInt8) :
    testAckBit (p.setByte (ackByte j) b) k =
      if ackByte k = ackByte j then b &&& bitMask (k % bitsInByte) != 0 else testAckBit p k := by
  split
  · next h => rw [testAckBit, h, p.byte_setByte _ _ (ackByte_lt_bufferSize hp hj)]
  · next h => rw [testAckBit, p.byte_setByte_of_ne _ h, testAckBit]

theorem testAckBit_setAckBit {j k : ℕ} (hj : j < windowSize) :
    testAckBit (setAckBit p j) k = (testAckBit p k || decide (j = k)) := by
  rw [setAckBit, testAckBit_setByte hp hj]
  split
  · next h =>
    have hb := or_bitMask (p.byte (ackByte j)) (ackBit j) (ackBit k)
    rw [decide_eq_decide.mpr (ackBit_eq_iff h), ← h] at hb
    rw [← h]
    exact hb
  · next h =>
    have hjk : j ≠ k := fun he => h (he ▸ rfl)
    simp [hjk]

theorem testAckBit_clearAckBit {j k : ℕ} (hj : j < windowSize) :
    testAckBit (clearAckBit p j) k = (testAckBit p k && decide (j ≠ k)) := by
  rw [clearAckBit, testAckBit_setByte hp hj]
  split
  · next h =>
    have hb := and_not_bitMask (p.byte (ackByte j)) (ackBit j) (ackBit k)
    rw [decide_eq_decide.mpr (ackBit_eq_iff h).not, ← h] at hb
    rw [← h]
    exact hb
  · next h =>
    have hjk : j ≠ k := fun he => h (he ▸ rfl)
    simp [hjk]

theorem ackBits_setAckBit (i : ℕ) :
    ackBits (setAckBit p (i % windowSize)) =
      Function.update (ackBits p) (ringSlot i) true := by
  ext k
  rw [ackBits, testAckBit_setAckBit hp (Nat.mod_lt _ (by decide)), Function.update_apply]
  by_cases hk : k = ringSlot i
  · subst hk
    simp
  · have hv : i % windowSize ≠ k := fun he => hk (Fin.ext he.symm)
    simp [hk, hv, ackBits]

theorem ackBits_clearAckBit (i : ℕ) :
    ackBits (clearAckBit p (i % windowSize)) =
      Function.update (ackBits p) (ringSlot i) false := by
  ext k
  rw [ackBits, testAckBit_clearAckBit hp (Nat.mod_lt _ (by decide)), Function.update_apply]
  by_cases hk : k = ringSlot i
  · subst hk
    simp
  · have hv : i % windowSize ≠ k := fun he => hk (Fin.ext he.symm)
    simp [hk, hv, ackBits]

/-- The bitmap of an acknowledgement survives the network. -/
theorem ackBits_received : ackBits (NetPacket.received p.wire) = ackBits p := by
  ext k
  rw [ackBits, ackBits, testAckBit, testAckBit, NetPacket.byte_received p (ackByte_lt hp k.isLt)]

end AckBits

section AckHeader

variable (p : NetPacket) (j : ℕ)

@[simp] theorem setAckBit_size : (setAckBit p j).size = p.size := rfl

@[simp] theorem clearAckBit_size : (clearAckBit p j).size = p.size := rfl

@[simp] theorem setAckBit_property : (setAckBit p j).property = p.property :=
  p.property_write _ _ (by have := three_lt_ackByte j; omega)

@[simp] theorem clearAckBit_property : (clearAckBit p j).property = p.property :=
  p.property_write _ _ (by have := three_lt_ackByte j; omega)

@[simp] theorem setAckBit_sequence : (setAckBit p j).sequence = p.sequence :=
  p.getValueAt_write_of_disjoint _ _ (.inl (by have := three_lt_ackByte j; omega))

@[simp] theorem clearAckBit_sequence : (clearAckBit p j).sequence = p.sequence :=
  p.getValueAt_write_of_disjoint _ _ (.inl (by have := three_lt_ackByte j; omega))

theorem ackBits_write {position : ℕ} {bytes : Bytes} (h : position + bytes.length ≤ 4) :
    ackBits (p.write position bytes) = ackBits p := by
  ext k
  have hk := three_lt_ackByte k
  rw [ackBits, ackBits, testAckBit, testAckBit,
    p.byte_write_of_disjoint _ _ _ (.inr (by omega))]

end AckHeader

/-- A slot holds something exactly when the receiver has its number, and then what it should. -/
def Held {α β : Type} (held : α → Option β) (carries : ℕ → β → Prop) (got : Set ℕ) (i : ℕ)
    (v : α) : Prop :=
  match held v with
  | none => i ∉ got
  | some value => i ∈ got ∧ carries i value

/-- A bit says whether the receiver has the number. -/
abbrev Marks (got : Set ℕ) : ℕ → Bool → Prop :=
  Held NetReliableChannel.earlyMark (fun _ _ => True) got

variable {α β : Type} {held : α → Option β} {carries : ℕ → β → Prop} {got : Set ℕ}

theorem marks_iff {i : ℕ} {b : Bool} : Marks got i b ↔ (b = true ↔ i ∈ got) := by
  cases b <;> simp [Marks, Held, NetReliableChannel.earlyMark]

theorem Held.insert_of_ne {i j : ℕ} {v : α} (hij : j ≠ i) (h : Held held carries got j v) :
    Held held carries (insert i got) j v := by
  unfold Held at *
  cases hv : held v with
  | none => simpa [hv, hij] using h
  | some value => simp_all

theorem Held.mono {carries' : ℕ → β → Prop} (hc : ∀ i b, carries i b → carries' i b) {i : ℕ}
    {v : α} (h : Held held carries got i v) : Held held carries' got i v := by
  unfold Held at *
  cases hv : held v with
  | none => simpa only [hv] using h
  | some value =>
    rw [hv] at h
    exact ⟨h.1, hc _ _ h.2⟩

/-- The acknowledgement packet reports the window starting at `start`. -/
structure Reports (acks : NetPacket) (start : ℕ) (got : Set ℕ) : Prop where
  size : acks.size = ackSize
  property : acks.property = .ack
  bits : Holds (ackBits acks) start (Marks got)

/-- Forgetting the oldest number makes room for one that has not come yet. -/
theorem Reports.clear {acks : NetPacket} {start : ℕ} (h : Reports acks start got)
    (hnew : start + windowSize ∉ got) :
    Reports (clearAckBit acks (start % windowSize)) (start + 1) got where
  size := h.size
  property := by rw [clearAckBit_property, h.property]
  bits := by
    rw [ackBits_clearAckBit h.size]
    apply h.bits.slide_update
    simpa [marks_iff] using hnew

theorem Reports.set {acks : NetPacket} {start i : ℕ} (h : Reports acks start got)
    (hi : start ≤ i) (hi' : i < start + windowSize) :
    Reports (setAckBit acks (i % windowSize)) start (insert i got) where
  size := h.size
  property := by rw [setAckBit_property, h.property]
  bits := by
    rw [ackBits_setAckBit h.size]
    refine h.bits.update hi hi' ?_ (fun _ _ hj h => h.insert_of_ne hj)
    simp [marks_iff]

theorem Reports.test {acks : NetPacket} {start i : ℕ} (h : Reports acks start got)
    (hi : start ≤ i) (hi' : i < start + windowSize) :
    testAckBit acks (i % windowSize) = true ↔ i ∈ got :=
  marks_iff.mp (h.bits i hi hi')

theorem Reports.setConnectionNumber {acks : NetPacket} {start : ℕ} (h : Reports acks start got)
    (n : UInt8) : Reports (acks.setConnectionNumber n) start got where
  size := h.size
  property := by rw [NetPacket.property_setConnectionNumber, h.property]
  bits := by
    have hbits : ackBits (acks.setConnectionNumber n) = ackBits acks := ackBits_write _ (by simp)
    rw [hbits]
    exact h.bits

/-- A report survives the network, and says nothing of numbers before its window. -/
theorem Reports.received {acks : NetPacket} {start : ℕ} (h : Reports acks start got) :
    Reports (.received acks.wire) start {i ∈ got | start ≤ i} where
  size := by rw [NetPacket.size_received, NetPacket.length_wire, h.size]
  property := by rw [NetPacket.property_received _ (by rw [h.size]; decide), h.property]
  bits := by
    rw [ackBits_received h.size]
    refine h.bits.mono fun i b hi _ hb => ?_
    rw [marks_iff] at hb ⊢
    simpa [hi] using hb

/-- The cleaning loop moves the reported window `k` numbers forward. -/
theorem cleanOldData_spec (k fuel : ℕ) {start : ℕ} {acks : NetPacket} (hk : k < maxSequence)
    (hf : k ≤ fuel) (h : Reports acks start got) (hgot : ∀ j ∈ got, j < start + windowSize)
    {r : NetPacket × ℕ}
    (hr : NetReliableChannel.cleanOldData fuel acks (start % maxSequence)
      ((start + k) % maxSequence) = r) :
    Reports r.1 (start + k) got ∧ r.2 = (start + k) % maxSequence ∧
      r.1.sequence = acks.sequence := by
  induction k generalizing fuel start acks with
  | zero =>
    cases fuel with
    | zero =>
      subst hr
      exact ⟨h, rfl, rfl⟩
    | succ fuel =>
      rw [NetReliableChannel.cleanOldData, Nat.add_zero, if_pos rfl] at hr
      subst hr
      exact ⟨h, rfl, rfl⟩
  | succ k ih =>
    cases fuel with
    | zero => omega
    | succ fuel =>
      have hne : start % maxSequence ≠ (start + (k + 1)) % maxSequence := fun he => by
        have := wrapped_injOn (by omega) (by omega) he
        omega
      have hslot : start % maxSequence % windowSize = start % windowSize :=
        Nat.mod_mod_of_dvd _ (by decide)
      have hnew : start + windowSize ∉ got := fun hm => by
        have := hgot _ hm
        omega
      have hsum : start + (k + 1) = start + 1 + k := by omega
      rw [NetReliableChannel.cleanOldData, if_neg hne, hslot, wrapped_succ, hsum] at hr
      rw [hsum]
      simpa using ih fuel (by omega) (by omega) (h.clear hnew)
        (fun j hj => by have := hgot j hj; omega) hr

/-- The window of slots moves past a number that came without having been held. -/
theorem Held.pass {e : ℕ} {ring : Ring α} (h : Holds ring e (Held held carries got))
    (he : e ∉ got) (hout : e + windowSize ∉ got) :
    Holds ring (e + 1) (Held held carries (insert e got)) := by
  have hfirst := h e le_rfl (by have := NeZero.pos windowSize; omega)
  have hnone : held (ring (ringSlot e)) = none := by
    rw [Held] at hfirst
    cases hv : held (ring (ringSlot e)) with
    | none => rfl
    | some value =>
      rw [hv] at hfirst
      exact absurd hfirst.1 he
  have hnew : Held held carries got (e + windowSize) (ring (ringSlot e)) := by
    rw [Held, hnone]
    exact hout
  exact (h.slide hnew).mono fun j _ hj _ hv => hv.insert_of_ne (by omega)

/-- Holding the value of a number that came early. -/
theorem Held.put {e i : ℕ} {ring : Ring α} {v : α} {value : β}
    (h : Holds ring e (Held held carries got)) (hi : e ≤ i) (hi' : i < e + windowSize)
    (hv : held v = some value) (hc : carries i value) :
    Holds (Function.update ring (ringSlot i) v) e (Held held carries (insert i got)) := by
  refine h.update hi hi' ?_ (fun _ _ hj h => h.insert_of_ne hj)
  rw [Held, hv]
  exact ⟨Set.mem_insert _ _, hc⟩

/-- The draining loop takes out what is held next in order and stops before the first number
that is missing. -/
theorem drain_spec {fuel e : ℕ} {ring : Ring α} {empty : α} (hempty : held empty = none)
    (hf : fuel ≤ windowSize) (h : Holds ring e (Held held carries got))
    (hgot : ∀ j ∈ got, j < e + fuel) {r : Ring α × ℕ × List β}
    (hr : NetReliableChannel.drain held empty fuel ring (e % maxSequence) = r) :
    ∃ k, r.2.1 = (e + k) % maxSequence ∧ Holds r.1 (e + k) (Held held carries got) ∧
      List.Forall₂ carries (List.range' e k) r.2.2 ∧
      (∀ j, e ≤ j → j < e + k → j ∈ got) ∧ e + k ∉ got := by
  induction fuel generalizing e ring r with
  | zero =>
    subst hr
    refine ⟨0, rfl, h, .nil, fun j hj hj' => by omega, fun hm => ?_⟩
    have := hgot _ hm
    omega
  | succ fuel ih =>
    have hslot : ringSlot (e % maxSequence) = ringSlot e := slot_mod (by decide) e
    have hfirst := h e le_rfl (by have := NeZero.pos windowSize; omega)
    rw [NetReliableChannel.drain, hslot, wrapped_succ] at hr
    rw [Held] at hfirst
    cases hv : held (ring (ringSlot e)) with
    | none =>
      rw [hv] at hr hfirst
      subst hr
      exact ⟨0, rfl, h, .nil, fun j hj hj' => by omega, hfirst⟩
    | some value =>
      rw [hv] at hr hfirst
      have hnew : Held held carries got (e + windowSize) empty := by
        rw [Held, hempty]
        intro hm
        have := hgot _ hm
        omega
      obtain ⟨k, hs, hring, hvals, hin, hout⟩ := ih (by omega) (h.slide_update hnew)
        (fun j hj => by have := hgot j hj; omega) rfl
      have he : e + 1 + k = e + (k + 1) := by omega
      rw [he] at hs hring hout hin
      subst hr
      refine ⟨k + 1, hs, hring, ?_, fun j hj hj' => ?_, hout⟩
      · rw [List.range'_succ]
        exact .cons hfirst.2 hvals
      · rcases Nat.eq_or_lt_of_le hj with rfl | hlt
        · exact hfirst.1
        · exact hin j hlt hj'

/-- The packets a channel hands to `net_peer::add_reliable_packet`. -/
def reliablePackets (calls : List PeerCall) : List NetPacket :=
  calls.filterMap fun
    | .addReliablePacket _ packet => some packet
    | _ => none

@[simp] theorem reliablePackets_append (xs ys : List PeerCall) :
    reliablePackets (xs ++ ys) = reliablePackets xs ++ reliablePackets ys :=
  List.filterMap_append ..

@[simp] theorem reliablePackets_map (method : DeliveryMethod) (packets : List NetPacket) :
    reliablePackets (packets.map (.addReliablePacket method)) = packets := by
  induction packets with
  | nil => rfl
  | cons p packets ih => exact congrArg (p :: ·) ih

@[simp] theorem reliablePackets_addToPeerChannelSendQueue (b : NetBaseChannel) :
    reliablePackets b.addToPeerChannelSendQueue.2 = [] := by
  rw [NetBaseChannel.addToPeerChannelSendQueue]
  split <;> rfl

namespace NetReliableChannel

/-- The counter of expected numbers and the slots of the packets that came early. -/
structure Stores (ch : NetReliableChannel) (carries : ℕ → NetPacket → Prop) (expected : ℕ)
    (got : Set ℕ) : Prop where
  remoteSequence : ch.remoteSequence = expected % maxSequence
  received : ch.ordered = true →
    Holds ch.receivedPackets expected (Held (fun held => held) carries got)
  early : ch.ordered = false → Holds ch.earlyReceived expected (Marks got)

/-- The receiving half of a channel represents the receiver of selective repeat. -/
structure Receives (ch : NetReliableChannel) (carries : ℕ → NetPacket → Prop)
    (s : SelectiveRepeat.State NetPacket) : Prop where
  remoteWindowStart : ch.remoteWindowStart = s.windowStart % maxSequence
  sequence : ch.outgoingAcks.sequence = s.windowStart % maxSequence
  reports : Reports ch.outgoingAcks s.windowStart s.got
  stores : ch.Stores carries s.expected s.got

/-- Both channels receive alike. -/
structure SameReceiver (ch ch' : NetReliableChannel) : Prop where
  ordered : ch'.ordered = ch.ordered
  id : ch'.id = ch.id
  remoteSequence : ch'.remoteSequence = ch.remoteSequence
  remoteWindowStart : ch'.remoteWindowStart = ch.remoteWindowStart
  mustSendAcks : ch'.mustSendAcks = ch.mustSendAcks
  outgoingAcks : ch'.outgoingAcks = ch.outgoingAcks
  receivedPackets : ch'.receivedPackets = ch.receivedPackets
  earlyReceived : ch'.earlyReceived = ch.earlyReceived

theorem SameReceiver.refl (ch : NetReliableChannel) : SameReceiver ch ch := by
  constructor <;> rfl

theorem SameReceiver.trans {ch₁ ch₂ ch₃ : NetReliableChannel} (h : SameReceiver ch₁ ch₂)
    (h' : SameReceiver ch₂ ch₃) : SameReceiver ch₁ ch₃ where
  ordered := h'.ordered.trans h.ordered
  id := h'.id.trans h.id
  remoteSequence := h'.remoteSequence.trans h.remoteSequence
  remoteWindowStart := h'.remoteWindowStart.trans h.remoteWindowStart
  mustSendAcks := h'.mustSendAcks.trans h.mustSendAcks
  outgoingAcks := h'.outgoingAcks.trans h.outgoingAcks
  receivedPackets := h'.receivedPackets.trans h.receivedPackets
  earlyReceived := h'.earlyReceived.trans h.earlyReceived

/-- The receiving half sees of the run only its window and the packets it may be given. -/
theorem Receives.mono {ch ch' : NetReliableChannel} {carries carries' : ℕ → NetPacket → Prop}
    {s s' : SelectiveRepeat.State NetPacket} (h : ch.Receives carries s)
    (hc : ∀ i p, carries i p → carries' i p) (hch : SameReceiver ch ch')
    (hw : s'.windowStart = s.windowStart) (he : s'.expected = s.expected) (hg : s'.got = s.got) :
    ch'.Receives carries' s' := by
  refine ⟨?_, ?_, ?_, ?_, fun hf => ?_, fun hf => ?_⟩
  · rw [hch.remoteWindowStart, hw, h.remoteWindowStart]
  · rw [hch.outgoingAcks, hw, h.sequence]
  · rw [hch.outgoingAcks, hw, hg]
    exact h.reports
  · rw [hch.remoteSequence, he, h.stores.remoteSequence]
  · rw [hch.receivedPackets, he, hg]
    exact (h.stores.received (hch.ordered ▸ hf)).mono fun _ _ _ _ hv => hv.mono hc
  · rw [hch.earlyReceived, he, hg]
    exact h.stores.early (hch.ordered ▸ hf)

/-- Both channels send alike. -/
structure SameSender (ch ch' : NetReliableChannel) : Prop where
  ordered : ch'.ordered = ch.ordered
  id : ch'.id = ch.id
  localSequence : ch'.localSequence = ch.localSequence
  localWindowStart : ch'.localWindowStart = ch.localWindowStart
  pendingPackets : ch'.pendingPackets = ch.pendingPackets
  outgoingQueue : ch'.base.outgoingQueue = ch.base.outgoingQueue
  canEnqueue : ch'.base.canEnqueue = ch.base.canEnqueue

theorem SameSender.refl (ch : NetReliableChannel) : SameSender ch ch := by
  constructor <;> rfl

theorem SameSender.trans {ch₁ ch₂ ch₃ : NetReliableChannel} (h : SameSender ch₁ ch₂)
    (h' : SameSender ch₂ ch₃) : SameSender ch₁ ch₃ where
  ordered := h'.ordered.trans h.ordered
  id := h'.id.trans h.id
  localSequence := h'.localSequence.trans h.localSequence
  localWindowStart := h'.localWindowStart.trans h.localWindowStart
  pendingPackets := h'.pendingPackets.trans h.pendingPackets
  outgoingQueue := h'.outgoingQueue.trans h.outgoingQueue
  canEnqueue := h'.canEnqueue.trans h.canEnqueue

/-- What is handed on when number `i` is accepted and `e` becomes the next expected one. -/
def HandsOn (ordered : Bool) (carries : ℕ → NetPacket → Prop) (expected e : ℕ) (packet : NetPacket)
    (packets : List NetPacket) : Prop :=
  if ordered then List.Forall₂ carries (List.range' expected (e - expected)) packets
  else packets = [packet]

section Deliver

variable {ch : NetReliableChannel} {carries : ℕ → NetPacket → Prop} {expected i : ℕ}
  {got : Set ℕ} {packet : NetPacket}

/-- A packet that came in order is handed on with what was held behind it. -/
private theorem deliver_next (h : ch.Stores carries expected got)
    (hseq : packet.sequence = expected % maxSequence) (hc : carries expected packet)
    (hnew : expected ∉ got) (hgot : ∀ j ∈ got, j < expected + windowSize) :
    ∃ k, (ch.deliver packet).1.Stores carries (expected + (k + 1)) (insert expected got) ∧
      HandsOn ch.ordered carries expected (expected + (k + 1)) packet
        (reliablePackets (ch.deliver packet).2) ∧
      (∀ j, expected < j → j < expected + (k + 1) → j ∈ insert expected got) ∧
      expected + (k + 1) ∉ insert expected got := by
  have hlt : ∀ j ∈ insert expected got, j < expected + 1 + windowSize := by
    rintro j (rfl | hj)
    · omega
    · have := hgot j hj
      omega
  have hout : expected + windowSize ∉ got := fun hm => (hgot _ hm).false
  have hsum : ∀ k, expected + 1 + k = expected + (k + 1) := fun k => by omega
  have hnext : (ch.remoteSequence + 1) % maxSequence = (expected + 1) % maxSequence := by
    rw [h.remoteSequence, wrapped_succ]
  rw [deliver, if_pos (hseq.trans h.remoteSequence.symm), hnext]
  by_cases ho : ch.ordered = true
  · obtain ⟨k, hs, hr, hp, hin, hlast⟩ :=
      drain_spec rfl le_rfl (Held.pass (h.received ho) hnew hout) hlt rfl
    rw [hsum] at hs hr hin hlast
    refine ⟨k, ?_, ?_, hin, hlast⟩
    · rw [if_pos ho]
      exact ⟨hs, fun _ => hr, fun hf => absurd (ho.symm.trans hf) (by decide)⟩
    · rw [HandsOn, if_pos ho, if_pos ho, reliablePackets_map, Nat.add_sub_cancel_left, List.range'_succ]
      exact .cons hc hp
  · obtain ⟨k, hs, hr, -, hin, hlast⟩ :=
      drain_spec earlyMark_false le_rfl (Held.pass (h.early (by simpa using ho)) hnew hout) hlt rfl
    rw [hsum] at hs hr hin hlast
    refine ⟨k, ?_, ?_, hin, hlast⟩
    · rw [if_neg ho]
      exact ⟨hs, fun hf => absurd hf ho, fun _ => hr⟩
    · rw [HandsOn, if_neg ho, if_neg ho]
      rfl

/-- A packet that came early is held, and handed on at once by the unordered channel. -/
private theorem deliver_early (h : ch.Stores carries expected got)
    (hseq : packet.sequence = i % maxSequence) (hc : carries i packet)
    (hi : expected < i) (hi' : i < expected + windowSize) :
    (ch.deliver packet).1.Stores carries expected (insert i got) ∧
      HandsOn ch.ordered carries expected expected packet
        (reliablePackets (ch.deliver packet).2) := by
  have hne : packet.sequence ≠ expected % maxSequence := fun he => by
    have hw : windowSize < maxSequence := by decide
    have := wrapped_injOn hi.le (by omega) (he.symm.trans hseq)
    omega
  have hslot : ringSlot packet.sequence = ringSlot i := by
    rw [hseq]
    exact slot_mod (by decide) i
  rw [deliver, if_neg (h.remoteSequence ▸ hne), hslot, HandsOn]
  by_cases ho : ch.ordered = true
  · rw [if_pos ho, if_pos ho, Nat.sub_self]
    refine ⟨⟨h.remoteSequence, fun _ => ?_, fun hf => absurd (ho.symm.trans hf) (by decide)⟩,
      .nil⟩
    exact Held.put (h.received ho) hi.le hi' rfl hc
  · rw [if_neg ho, if_neg ho]
    refine ⟨⟨h.remoteSequence, fun hf => absurd hf ho, fun _ => ?_⟩, rfl⟩
    exact Held.put (h.early (by simpa using ho)) hi.le hi' rfl trivial

/-- Both cases: the number is accepted and the next expected one moves past all that came. -/
private theorem deliver_spec (ch : NetReliableChannel) (h : ch.Stores carries expected got)
    (hseq : packet.sequence = i % maxSequence) (hc : carries i packet) (hi : expected ≤ i)
    (hi' : i < expected + windowSize) (hprev : ∀ j < expected, j ∈ got) (hnew : expected ∉ got)
    (hgot : ∀ j ∈ got, j < expected + windowSize) :
    ∃ e, (ch.deliver packet).1.Stores carries e (insert i got) ∧
      HandsOn ch.ordered carries expected e packet (reliablePackets (ch.deliver packet).2) ∧
      (∀ j < e, j ∈ insert i got) ∧ e ∉ insert i got := by
  rcases Nat.eq_or_lt_of_le hi with rfl | hlt
  · obtain ⟨k, hs, hh, hin, hout⟩ := deliver_next h hseq hc hnew hgot
    refine ⟨_, hs, hh, fun j hj => ?_, hout⟩
    rcases Nat.lt_trichotomy j expected with hlt | rfl | hgt
    · exact Set.mem_insert_of_mem _ (hprev j hlt)
    · exact Set.mem_insert _ _
    · exact hin j hgt hj
  · obtain ⟨hs, hh⟩ := deliver_early h hseq hc hlt hi'
    refine ⟨expected, hs, hh, fun j hj => Set.mem_insert_of_mem _ (hprev j hj), ?_⟩
    rintro (he | hm)
    · omega
    · exact hnew hm

end Deliver

section Accept

variable {ch : NetReliableChannel} {carries : ℕ → NetPacket → Prop} {i : ℕ}
  {s : SelectiveRepeat.State NetPacket} {packet : NetPacket}

theorem deliver_sameSender (ch : NetReliableChannel) (packet : NetPacket) :
    SameSender ch (ch.deliver packet).1 := by
  rw [deliver]
  split <;> split <;> constructor <;> rfl

theorem deliver_outgoingAcks (ch : NetReliableChannel) (packet : NetPacket) :
    (ch.deliver packet).1.outgoingAcks = ch.outgoingAcks ∧
      (ch.deliver packet).1.remoteWindowStart = ch.remoteWindowStart := by
  rw [deliver]
  split <;> split <;> exact ⟨rfl, rfl⟩

theorem acceptPacket_sameSender (ch : NetReliableChannel) (packet : NetPacket) :
    SameSender ch (ch.acceptPacket packet).1 := by
  rw [acceptPacket]
  split
  · constructor <;> simp
  · refine SameSender.trans ?_ (deliver_sameSender _ _)
    constructor <;> simp

/-- The part after the window checks drops a number the receiver has and accepts any other. -/
theorem acceptPacket_spec (h : ch.Receives carries s)
    (hseq : packet.sequence = i % maxSequence) (hc : carries i packet)
    (hw : s.windowStart ≤ i) (hw' : i < s.windowStart + windowSize)
    (hi' : i < s.expected + windowSize) (hprev : ∀ j < s.expected, j ∈ s.got)
    (hnew : s.expected ∉ s.got) (hgot : ∀ j ∈ s.got, j < s.expected + windowSize) :
    let r := ch.acceptPacket packet
    (i ∈ s.got ∧ r.1.Receives carries s ∧ reliablePackets r.2.1 = []) ∨
      i ∉ s.got ∧ ∃ e, (∀ j < e, j ∈ insert i s.got) ∧ e ∉ insert i s.got ∧
        r.1.Receives carries { s with
          got := insert i s.got, order := s.order ++ [i], expected := e } ∧
        HandsOn ch.ordered carries s.expected e packet (reliablePackets r.2.1) := by
  have hslot : packet.sequence % windowSize = i % windowSize := by
    rw [hseq]
    exact Nat.mod_mod_of_dvd _ (by decide)
  rw [acceptPacket, hslot]
  by_cases hi : i ∈ s.got
  · left
    rw [if_pos ((h.reports.test hw hw').mpr hi)]
    refine ⟨hi, ⟨h.remoteWindowStart, h.sequence, h.reports, ?_⟩, by simp⟩
    exact ⟨h.stores.remoteSequence, h.stores.received, h.stores.early⟩
  · right
    rw [if_neg (mt (h.reports.test hw hw').mp hi)]
    have hle : s.expected ≤ i := by
      by_contra hlt
      exact hi (hprev i (by omega))
    refine ⟨hi, ?_⟩
    obtain ⟨e, hst, hh, hin, hout⟩ := deliver_spec { ch with
        mustSendAcks := true
        base := ch.base.addToPeerChannelSendQueue.1
        outgoingAcks := setAckBit ch.outgoingAcks (i % windowSize) }
      ⟨h.stores.remoteSequence, h.stores.received, h.stores.early⟩ hseq hc hle hi' hprev hnew hgot
    have hframe := deliver_outgoingAcks { ch with
        mustSendAcks := true
        base := ch.base.addToPeerChannelSendQueue.1
        outgoingAcks := setAckBit ch.outgoingAcks (i % windowSize) } packet
    refine ⟨e, hin, hout, ⟨?_, ?_, ?_, hst⟩, ?_⟩
    · exact hframe.2.trans h.remoteWindowStart
    · rw [hframe.1, setAckBit_sequence, h.sequence]
    · rw [hframe.1]
      exact h.reports.set hw hw'
    · simpa using hh

/-- Moving the window forward by less than a turn. -/
theorem moveWindow_spec (h : ch.Receives carries s)
    (hgot : ∀ j ∈ s.got, j < s.windowStart + windowSize) (hi : s.windowStart + windowSize ≤ i)
    (hi' : i < s.windowStart + maxSequence) :
    (ch.moveWindow (i - s.windowStart)).Receives carries
      { s with windowStart := i + 1 - windowSize } := by
  obtain ⟨k, hk⟩ := Nat.exists_eq_add_of_le (show s.windowStart ≤ i + 1 - windowSize by omega)
  have hsum : (ch.remoteWindowStart + (i - s.windowStart) - windowSize + 1) % maxSequence =
      (s.windowStart + k) % maxSequence := by
    have hmove : ch.remoteWindowStart + (i - s.windowStart) - windowSize + 1 =
        s.windowStart % maxSequence + k := by
      rw [h.remoteWindowStart]
      omega
    rw [hmove, Nat.mod_add_mod]
  have hreport : Reports (ch.outgoingAcks.setSequence ((s.windowStart + k) % maxSequence))
      s.windowStart s.got := by
    refine ⟨h.reports.size, ?_, ?_⟩
    · rw [NetPacket.property_setSequence, h.reports.property]
    · rw [NetPacket.setSequence, NetPacket.setValueAt, ackBits_write _ (by simp)]
      exact h.reports.bits
  have hpos := NeZero.pos windowSize
  obtain ⟨hr, hs, hq⟩ := cleanOldData_spec k maxSequence
    (by omega) (by omega) hreport hgot rfl
  rw [moveWindow, hsum, h.remoteWindowStart, hk]
  refine ⟨hs, ?_, hr, ⟨h.stores.remoteSequence, h.stores.received, h.stores.early⟩⟩
  rw [hq, NetPacket.sequence_setSequence]
  exact Nat.mod_eq_of_lt ((Nat.mod_lt _ (by decide)).trans (by decide))

/-- What a data packet does to the receiver: nothing but the flags, or one acceptance. -/
def DataOutcome (ch : NetReliableChannel) (carries : ℕ → NetPacket → Prop)
    (s : SelectiveRepeat.State NetPacket) (i : ℕ) (packet : NetPacket)
    (r : NetReliableChannel × List PeerCall × Bool) : Prop :=
  (r.1.Receives carries s ∧ reliablePackets r.2.1 = []) ∨
    s.windowStart ≤ i ∧ i ∉ s.got ∧ ∃ e, (∀ j < e, j ∈ insert i s.got) ∧ e ∉ insert i s.got ∧
      r.1.Receives carries (s.accepted windowSize i e) ∧
      HandsOn ch.ordered carries s.expected e packet (reliablePackets r.2.1)

theorem processPacket_data (h : ch.Receives carries s)
    (hinv : SelectiveRepeat.Inv windowSize s) (hi : i < s.next) (hp : packet.property ≠ .ack)
    (hseq : packet.sequence = i % maxSequence) (hc : carries i packet)
    (hold : s.expected ≤ i + halfMaxSequence) :
    DataOutcome ch carries s i packet (ch.processPacket packet) := by
  have hnext := hinv.next_le_expected
  have hexp := hinv.expected_le
  have hwin := hinv.window_le
  have hhalf : 2 * windowSize < halfMaxSequence := by decide
  have hgot : ∀ j ∈ s.got, j < s.expected + windowSize := fun j hj =>
    (hinv.got_lt j hj).trans_le hnext
  have hrelate : relativeSequenceNumber packet.sequence ch.remoteWindowStart =
      (i : ℤ) - s.windowStart := by
    rw [hseq, h.remoteWindowStart, relativeSequenceNumber_wrapped (by omega) (by omega)]
  have hseq_lt : ¬ maxSequence ≤ packet.sequence := by
    rw [hseq, not_le]
    exact Nat.mod_lt _ (by decide)
  have hsame : DataOutcome ch carries s i packet (ch, [], false) := .inl ⟨h, rfl⟩
  rw [processPacket, if_neg hp]
  simp only [hrelate, if_neg hseq_lt]
  split_ifs with hfar hbehind hbeyond hmove
  · exact hsame
  · exact hsame
  · exact hsame
  · have hto : ((i : ℤ) - s.windowStart).toNat = i - s.windowStart := by omega
    have hmax : max s.windowStart (i + 1 - windowSize) = i + 1 - windowSize := by omega
    have hni : i ∉ s.got := fun hm => by
      have := hinv.got_window i hm
      omega
    have hmoved := moveWindow_spec h hinv.got_window (i := i) (by omega)
      (by have := maxSequence_eq; omega)
    rw [hto]
    rcases acceptPacket_spec hmoved hseq hc (by simp only; omega)
      (by have := NeZero.pos windowSize; simp only; omega) (by simp only; omega)
      hinv.expected_got hinv.expected_new hgot with ⟨hm, -⟩ | ⟨-, e, hin, hout, hr, hh⟩
    · exact absurd hm hni
    · refine .inr ⟨by omega, hni, e, hin, hout, ?_, hh⟩
      rw [SelectiveRepeat.State.accepted, hmax]
      exact hr
  · have hmax : max s.windowStart (i + 1 - windowSize) = s.windowStart := by omega
    rcases acceptPacket_spec h hseq hc (by omega) (by omega) (by omega)
      hinv.expected_got hinv.expected_new hgot with ⟨-, hr, hd⟩ | ⟨hni, e, hin, hout, hr, hh⟩
    · exact .inl ⟨hr, hd⟩
    · refine .inr ⟨by omega, hni, e, hin, hout, ?_, hh⟩
      rw [SelectiveRepeat.State.accepted, hmax]
      exact hr

theorem processPacket_sameSender (ch : NetReliableChannel) (hp : packet.property ≠ .ack) :
    SameSender ch (ch.processPacket packet).1 := by
  rw [processPacket, if_neg hp]
  simp only
  split_ifs
  · exact .refl ch
  · exact .refl ch
  · exact .refl ch
  · exact .refl ch
  · refine SameSender.trans ?_ (acceptPacket_sameSender _ _)
    constructor <;> rfl
  · exact acceptPacket_sameSender ch packet

theorem sendAcks_spec (h : ch.Receives carries s) (ctx : ChannelContext) :
    (ch.sendAcks ctx).1.Receives carries s ∧ ∀ c ∈ (ch.sendAcks ctx).2, ∃ p,
      c = .sendUserData p ∧ p.sequence = s.windowStart % maxSequence ∧
      Reports p s.windowStart s.got := by
  have hreports := h.reports.setConnectionNumber ctx.connectNumber
  have hseq : (ch.outgoingAcks.setConnectionNumber ctx.connectNumber).sequence =
      s.windowStart % maxSequence := by
    rw [NetPacket.sequence_setConnectionNumber, h.sequence]
  rw [sendAcks]
  split
  · refine ⟨⟨h.remoteWindowStart, hseq, hreports, ?_⟩, fun c hc => ?_⟩
    · exact ⟨h.stores.remoteSequence, h.stores.received, h.stores.early⟩
    · obtain rfl : c = .sendUserData _ := by simpa using hc
      exact ⟨_, rfl, hseq, hreports⟩
  · exact ⟨h, by simp⟩

end Accept

end NetReliableChannel

end LiteNet.Channels
