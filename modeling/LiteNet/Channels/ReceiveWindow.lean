import LiteNet.Channels.ReliableLink

/-! # The receive window against any sender

Numbers are read relative to the window, so what an arbitrary sender sends can be
taken for packets of a stream. The window is kept by every packet but one that is
exactly a window ahead of the next expected number.
-/

namespace LiteNet.Channels
open Library Wire Relation

structure ReceiveWindow where
  channel : NetReliableChannel
  /-- `m_remote_window_start`, not wrapped -/
  start : ℕ
  /-- the numbers accepted so far, not wrapped -/
  accepted : List ℕ

namespace ReceiveWindow

def process (w : ReceiveWindow) (packet : NetPacket) : ReceiveWindow :=
  let processed := w.channel.processPacket packet
  let relate := relativeSequenceNumber packet.sequence w.channel.remoteWindowStart
  { channel := processed.1
    start := unwrap maxSequence w.start w.channel.remoteWindowStart processed.1.remoteWindowStart
    accepted := if processed.2.2 then w.accepted ++ [w.start + relate.toNat] else w.accepted }

/-- One packet with any number that meets a condition. -/
inductive Step (P : NetReliableChannel → NetPacket → Prop) : ReceiveWindow → ReceiveWindow → Prop
  | process (w : ReceiveWindow) (packet : NetPacket) (hp : packet.property = .channeled)
      (h : P w.channel packet) : Step P w (w.process packet)

def Started (ordered : Bool) (id : UInt8) (w : ReceiveWindow) : Prop :=
  w = ⟨.new ordered id, 0, []⟩

/-- The packet is not exactly one window ahead of the next expected one, or it is beyond the next
window. -/
def NotAhead (ch : NetReliableChannel) (packet : NetPacket) : Prop :=
  packet.sequence < maxSequence →
    relativeSequenceNumber packet.sequence ch.remoteSequence = windowSize →
    (windowSize : ℤ) * 2 ≤ relativeSequenceNumber packet.sequence ch.remoteWindowStart

/-- The window is open for the next expected packet. -/
structure Sound (w : ReceiveWindow) : Prop where
  start_eq : w.channel.remoteWindowStart = w.start % maxSequence
  distance : (w.channel.remoteSequence + maxSequence - w.channel.remoteWindowStart) % maxSequence ≤
    windowSize
  bits : ∀ k < windowSize, testAckBit w.channel.outgoingAcks
      ((w.channel.remoteWindowStart + k) % maxSequence % windowSize) = true ↔
    w.start + k ∈ w.accepted
  free : (w.channel.ordered = true →
      w.channel.receivedPackets (ringSlot w.channel.remoteSequence) = none) ∧
    (w.channel.ordered = false →
      w.channel.earlyReceived (ringSlot w.channel.remoteSequence) = false)
  next : ∀ packet : NetPacket, packet.property = .channeled →
    packet.sequence = w.channel.remoteSequence → (w.channel.processPacket packet).2.2 = true ∧
      packet ∈ reliablePackets (w.channel.processPacket packet).2.1

abbrev Abstract : Type := SelectiveRepeat.State NetPacket

/-- The receiver has all numbers before the next expected one, not that one, and none beyond its
window. -/
structure Open (ch : NetReliableChannel) (s : Abstract) : Prop where
  receives : ch.Receives (fun _ _ => True) s
  start_le : s.windowStart ≤ s.expected
  expected_got : ∀ j < s.expected, j ∈ s.got
  expected_new : s.expected ∉ s.got
  got_lt : ∀ j ∈ s.got, j < s.windowStart + windowSize

namespace Open

variable {ch : NetReliableChannel} {s : Abstract} {packet : NetPacket} {i : ℕ}

theorem expected_le (h : Open ch s) : s.expected ≤ s.windowStart + windowSize := by
  by_contra hlt
  have hmem := h.expected_got (s.windowStart + windowSize) (by omega)
  exact (h.got_lt _ hmem).false

/-- The window moves so that a number less than a window ahead of the next expected one is its
last. -/
theorem move (h : Open ch s) (hi : s.windowStart + windowSize ≤ i)
    (hahead : i < s.expected + windowSize) :
    Open (ch.moveWindow (i - s.windowStart)) { s with windowStart := i + 1 - windowSize } := by
  have hle := h.expected_le
  have hmax : windowSize + windowSize < maxSequence := by decide
  refine ⟨NetReliableChannel.moveWindow_spec h.receives h.got_lt hi (by omega), ?_,
    h.expected_got, h.expected_new, fun j hj => ?_⟩
  · change i + 1 - windowSize ≤ s.expected
    omega
  · have := h.got_lt j hj
    change j < i + 1 - windowSize + windowSize
    omega

theorem acceptPacket_result (ch : NetReliableChannel) (packet : NetPacket) :
    (ch.acceptPacket packet).2.2 =
      !testAckBit ch.outgoingAcks (packet.sequence % windowSize) := by
  rw [NetReliableChannel.acceptPacket]
  dsimp only
  split
  · next hb => rw [hb, Bool.not_true]
  · next hb => rw [Bool.not_eq_true] at hb; rw [hb, Bool.not_false]

/-- A number of the window is accepted unless the receiver has it. -/
theorem accept (h : Open ch s) (hseq : packet.sequence = i % maxSequence)
    (hi : s.windowStart ≤ i) (hi' : i < s.windowStart + windowSize)
    (hahead : i < s.expected + windowSize) :
    ∃ s', Open (ch.acceptPacket packet).1 s' ∧ s'.windowStart = s.windowStart ∧
      ((ch.acceptPacket packet).2.2 = true ↔ i ∉ s.got) ∧ s'.got = insert i s.got := by
  have hle := h.expected_le
  have hgot : ∀ j ∈ s.got, j < s.expected + windowSize := fun j hj => by
    have := h.got_lt j hj
    have := h.start_le
    omega
  have hslot : packet.sequence % windowSize = i % windowSize := by
    rw [hseq]
    exact Nat.mod_mod_of_dvd _ (by decide)
  have hresult : (ch.acceptPacket packet).2.2 = true ↔ i ∉ s.got := by
    rw [acceptPacket_result, hslot, Bool.not_eq_true', ← Bool.not_eq_true,
      h.receives.reports.test hi hi']
  rcases NetReliableChannel.acceptPacket_spec h.receives hseq trivial hi hi' hahead
    h.expected_got h.expected_new hgot with ⟨hm, hr, -⟩ | ⟨hni, e, hin, hout, hr, -⟩
  · refine ⟨s, ⟨hr, h.start_le, h.expected_got, h.expected_new, h.got_lt⟩, rfl, hresult, ?_⟩
    rw [Set.insert_eq_of_mem hm]
  · refine ⟨_, ⟨hr, ?_, hin, hout, ?_⟩, rfl, hresult, rfl⟩
    · refine h.start_le.trans (not_lt.mp (fun hlt => hout (Set.mem_insert_of_mem _ ?_)))
      exact h.expected_got e hlt
    · rintro j (rfl | hj)
      · exact hi'
      · exact h.got_lt j hj

/-- The window checks on a number of the window or of the next one that is at most a window ahead
of the next expected one. -/
theorem processPacket (h : Open ch s) (hp : packet.property ≠ .ack)
    (hseq : packet.sequence = i % maxSequence) (hi : s.windowStart ≤ i)
    (hbeyond : i < s.windowStart + 2 * windowSize) (hahead : i ≤ s.expected + windowSize) :
    ch.processPacket packet = (if s.windowStart + windowSize ≤ i
      then ch.moveWindow (i - s.windowStart) else ch).acceptPacket packet := by
  have hle := h.expected_le
  have hstart := h.start_le
  have hwide : 4 * windowSize < halfMaxSequence := by decide
  have hlt : ¬ maxSequence ≤ packet.sequence := by
    rw [hseq, not_le]
    exact Nat.mod_lt _ (by decide)
  have hrel : relativeSequenceNumber packet.sequence ch.remoteWindowStart =
      (i : ℤ) - s.windowStart := by
    rw [hseq, h.receives.remoteWindowStart, relativeSequenceNumber_wrapped (by omega) (by omega)]
  have hrelSeq : relativeSequenceNumber packet.sequence ch.remoteSequence =
      (i : ℤ) - s.expected := by
    rw [hseq, h.receives.stores.remoteSequence,
      relativeSequenceNumber_wrapped (by omega) (by omega)]
  rw [NetReliableChannel.processPacket, if_neg hp, if_neg hlt]
  simp only [hrel, hrelSeq]
  rw [if_neg (by omega), if_neg (by omega), if_neg (by omega)]
  by_cases hmove : s.windowStart + windowSize ≤ i
  · rw [if_pos hmove, if_pos (by omega), ← Nat.cast_sub hi, Int.toNat_natCast]
  · rw [if_neg hmove, if_neg (by omega)]

end Open

/-- The unwrapped window belongs to the receiver. -/
structure Inv (w : ReceiveWindow) (s : Abstract) : Prop extends Open w.channel s where
  start_eq : w.start = s.windowStart
  mem_accepted : ∀ i, i ∈ w.accepted ↔ i ∈ s.got

/-- A number that is not behind the window start, read from its distance. -/
theorem sequence_of_relative {sequence : ℕ} (start : ℕ) (hlt : sequence < maxSequence)
    (h : 0 ≤ relativeSequenceNumber sequence ((start % maxSequence : ℕ) : ℤ)) :
    sequence = (start + (relativeSequenceNumber sequence
      ((start % maxSequence : ℕ) : ℤ)).toNat) % maxSequence := by
  have hrel : relativeSequenceNumber sequence ((start % maxSequence : ℕ) : ℤ) =
      ((sequence : ℤ) - (start % maxSequence : ℕ) + halfMaxSequence) % (2 * halfMaxSequence) -
        halfMaxSequence := by
    have := Nat.mod_lt start (show 0 < maxSequence by decide)
    rw [relativeSequenceNumber_eq, serialDistance_eq_emod]
    rw [maxSequence_eq] at this ⊢
    omega
  rw [hrel] at h ⊢
  simp only [maxSequence, halfMaxSequence] at hlt h ⊢
  omega

namespace Inv

variable {w : ReceiveWindow} {s : Abstract}

theorem initial (ordered : Bool) (id : UInt8) :
    Inv ⟨.new ordered id, 0, []⟩ SelectiveRepeat.initial where
  receives := (Link.Represents.initial ordered id).receives.mono (fun _ _ _ => trivial)
    (.refl _) rfl rfl rfl
  start_le := le_rfl
  expected_got := fun _ hj => absurd hj (Nat.not_lt_zero _)
  expected_new := Set.notMem_empty _
  got_lt := fun _ hj => absurd hj (Set.notMem_empty _)
  start_eq := rfl
  mem_accepted := fun i => iff_of_false List.not_mem_nil (Set.notMem_empty i)

theorem unchanged (h : Inv w s) {packet : NetPacket}
    (hp : w.channel.processPacket packet = (w.channel, [], false)) : Inv (w.process packet) s := by
  have hstart : (w.process packet).start = w.start := by
    rw [process, hp, h.receives.remoteWindowStart, h.start_eq]
    exact unwrap_wrapped le_rfl (Nat.lt_add_of_pos_right (by decide))
  have hchannel : (w.process packet).channel = w.channel := by rw [process, hp]
  have haccepted : (w.process packet).accepted = w.accepted := by
    rw [process, hp]
    rfl
  refine { toOpen := hchannel ▸ h.toOpen, start_eq := hstart.trans h.start_eq,
           mem_accepted := haccepted ▸ h.mem_accepted }

theorem accepting (h : Inv w s) {packet : NetPacket} {i : ℕ} {s₁ : Abstract}
    {ch : NetReliableChannel} (hp : w.channel.processPacket packet = ch.acceptPacket packet)
    (ho : Open ch s₁) (hgot : s₁.got = s.got) (hseq : packet.sequence = i % maxSequence)
    (hrel : relativeSequenceNumber packet.sequence w.channel.remoteWindowStart =
      (i : ℤ) - s.windowStart)
    (hstart : s.windowStart ≤ s₁.windowStart)
    (hstart' : s₁.windowStart < s.windowStart + maxSequence)
    (hi : s₁.windowStart ≤ i) (hi' : i < s₁.windowStart + windowSize)
    (hahead : i < s₁.expected + windowSize) : ∃ s', Inv (w.process packet) s' := by
  obtain ⟨s', ho', hs', hresult, hg'⟩ := ho.accept hseq hi hi' hahead
  have hto : w.start + ((i : ℤ) - s.windowStart).toNat = i := by
    rw [h.start_eq]
    omega
  refine ⟨s', ?_, ?_, fun j => ?_⟩
  · rw [process, hp]
    exact ho'
  · rw [process, hp, h.start_eq, h.receives.remoteWindowStart, ho'.receives.remoteWindowStart, hs']
    exact unwrap_wrapped hstart hstart'
  · simp only [process, hp, hrel, hto]
    rw [hg', hgot, Set.mem_insert_iff]
    by_cases hnew : i ∉ s₁.got
    · rw [if_pos (hresult.mpr hnew), List.mem_append, List.mem_singleton, h.mem_accepted, or_comm]
    · rw [if_neg (mt hresult.mp hnew), h.mem_accepted]
      rw [hgot, not_not] at hnew
      exact ⟨.inr, fun hj => hj.elim (fun he => he ▸ hnew) id⟩

/-- The number of a packet that the window checks do not drop for its distance from the window
start. -/
theorem number (h : Inv w s) {packet : NetPacket} (hlt : packet.sequence < maxSequence)
    (hbehind : 0 ≤ relativeSequenceNumber packet.sequence w.channel.remoteWindowStart)
    (hbeyond : relativeSequenceNumber packet.sequence w.channel.remoteWindowStart <
      (windowSize : ℤ) * 2) :
    ∃ i, packet.sequence = i % maxSequence ∧ s.windowStart ≤ i ∧
      relativeSequenceNumber packet.sequence w.channel.remoteWindowStart =
        (i : ℤ) - s.windowStart ∧ i < s.windowStart + 2 * windowSize := by
  have hws := h.receives.remoteWindowStart
  have hseq := sequence_of_relative s.windowStart hlt (hws ▸ hbehind)
  rw [← hws] at hseq
  exact ⟨_, hseq, by omega, by omega, by omega⟩

theorem process (h : Inv w s) {packet : NetPacket} (hp : packet.property ≠ .ack)
    (hn : NotAhead w.channel packet) : ∃ s', Inv (w.process packet) s' := by
  have hle := h.expected_le
  have hstart := h.start_le
  have hsize : 0 < windowSize := by decide
  have hwide : 4 * windowSize < halfMaxSequence := by decide
  have hmax := maxSequence_eq
  have hexp := h.receives.stores.remoteSequence
  by_cases hlt : maxSequence ≤ packet.sequence
  · exact ⟨s, h.unchanged (by rw [NetReliableChannel.processPacket, if_neg hp, if_pos hlt])⟩
  · by_cases hbehind : relativeSequenceNumber packet.sequence w.channel.remoteWindowStart < 0
    · refine ⟨s, h.unchanged ?_⟩
      rw [NetReliableChannel.processPacket, if_neg hp, if_neg hlt]
      simp only [if_pos hbehind, ite_self]
    · by_cases hbeyond : (windowSize : ℤ) * 2 ≤
          relativeSequenceNumber packet.sequence w.channel.remoteWindowStart
      · refine ⟨s, h.unchanged ?_⟩
        rw [NetReliableChannel.processPacket, if_neg hp, if_neg hlt]
        simp only [if_pos hbeyond, ite_self]
      · obtain ⟨i, hseq, hi, hrel, hi'⟩ := h.number (not_le.mp hlt) (not_lt.mp hbehind)
          (not_le.mp hbeyond)
        have hrelSeq : relativeSequenceNumber packet.sequence w.channel.remoteSequence =
            (i : ℤ) - s.expected := by
          rw [hseq, hexp, relativeSequenceNumber_wrapped (by omega) (by omega)]
        by_cases hfar : (windowSize : ℤ) <
            relativeSequenceNumber packet.sequence w.channel.remoteSequence
        · refine ⟨s, h.unchanged ?_⟩
          rw [NetReliableChannel.processPacket, if_neg hp, if_neg hlt]
          simp only [if_pos hfar]
        · have hahead : i < s.expected + windowSize := by
            have := hn (not_le.mp hlt)
            omega
          have hprocess := h.toOpen.processPacket hp hseq hi hi' hahead.le
          by_cases hmove : s.windowStart + windowSize ≤ i
          · rw [if_pos hmove] at hprocess
            exact h.accepting hprocess (h.move hmove hahead) rfl hseq hrel (by simp only; omega)
              (by simp only; omega) (by simp only; omega) (by simp only; omega) hahead
          · rw [if_neg hmove] at hprocess
            exact h.accepting hprocess h.toOpen rfl hseq hrel le_rfl (by omega) hi (by omega) hahead

theorem free (h : Inv w s) :
    (w.channel.ordered = true →
        w.channel.receivedPackets (ringSlot w.channel.remoteSequence) = none) ∧
      (w.channel.ordered = false →
        w.channel.earlyReceived (ringSlot w.channel.remoteSequence) = false) := by
  have hpos := NeZero.pos windowSize
  have hslot : ringSlot w.channel.remoteSequence = ringSlot s.expected := by
    rw [h.receives.stores.remoteSequence]
    exact slot_mod (by decide) _
  rw [hslot]
  refine ⟨fun ho => ?_, fun ho => ?_⟩
  · have hheld := h.receives.stores.received ho s.expected le_rfl (by omega)
    rw [Held] at hheld
    cases hp : w.channel.receivedPackets (ringSlot s.expected) with
    | none => rfl
    | some p =>
      rw [hp] at hheld
      exact absurd hheld.1 h.expected_new
  · have hmark := h.receives.stores.early ho s.expected le_rfl (by omega)
    rw [marks_iff] at hmark
    rw [← Bool.not_eq_true]
    exact mt hmark.mp h.expected_new

theorem deliver_expected (ch : NetReliableChannel) {packet : NetPacket}
    (h : packet.sequence = ch.remoteSequence) : packet ∈ reliablePackets (ch.deliver packet).2 := by
  rw [NetReliableChannel.deliver, if_pos h]
  dsimp only
  split
  · rw [reliablePackets_map]
    exact List.mem_cons_self
  · exact List.mem_cons_self

theorem acceptPacket_expected (ch : NetReliableChannel) {packet : NetPacket}
    (h : packet.sequence = ch.remoteSequence) (hr : (ch.acceptPacket packet).2.2 = true) :
    packet ∈ reliablePackets (ch.acceptPacket packet).2.1 := by
  rw [NetReliableChannel.acceptPacket] at hr ⊢
  dsimp only at hr ⊢
  split
  · next hb =>
    rw [if_pos hb] at hr
    cases hr
  · rw [reliablePackets_append, List.mem_append]
    exact .inr (deliver_expected _ h)

theorem next (h : Inv w s) {packet : NetPacket} (hp : packet.property ≠ .ack)
    (hseq : packet.sequence = w.channel.remoteSequence) :
    (w.channel.processPacket packet).2.2 = true ∧
      packet ∈ reliablePackets (w.channel.processPacket packet).2.1 := by
  have hle := h.expected_le
  have hstart := h.start_le
  have hpos := NeZero.pos windowSize
  have hnumber : packet.sequence = s.expected % maxSequence :=
    hseq.trans h.receives.stores.remoteSequence
  have haccept : ∀ {ch : NetReliableChannel} {s₁ : Abstract}, Open ch s₁ →
      ch.remoteSequence = w.channel.remoteSequence → s₁.expected = s.expected → s₁.got = s.got →
      s₁.windowStart ≤ s.expected → s.expected < s₁.windowStart + windowSize →
      (ch.acceptPacket packet).2.2 = true ∧
        packet ∈ reliablePackets (ch.acceptPacket packet).2.1 := by
    intro ch s₁ ho hr he hg hlo hhi
    obtain ⟨_, -, -, hresult, -⟩ := ho.accept hnumber hlo hhi (by omega)
    have htrue := hresult.mpr (hg ▸ h.expected_new)
    exact ⟨htrue, acceptPacket_expected ch (hseq.trans hr.symm) htrue⟩
  rw [h.toOpen.processPacket hp hnumber hstart (by omega) (by omega)]
  by_cases hmove : s.windowStart + windowSize ≤ s.expected
  · rw [if_pos hmove]
    exact haccept (h.move hmove (by omega)) rfl rfl rfl (by simp only; omega) (by simp only; omega)
  · rw [if_neg hmove]
    exact haccept h.toOpen rfl rfl rfl hstart (by omega)

theorem sound (h : Inv w s) : Sound w where
  start_eq := by rw [h.start_eq, h.receives.remoteWindowStart]
  distance := by
    have hle := h.expected_le
    have hstart := h.start_le
    rw [h.receives.remoteWindowStart, h.receives.stores.remoteSequence]
    simp only [maxSequence, windowSize, defaultWindowSize] at hle ⊢
    omega
  bits := by
    intro k hk
    have hslot : (w.channel.remoteWindowStart + k) % maxSequence % windowSize =
        (s.windowStart + k) % windowSize := by
      rw [h.receives.remoteWindowStart, Nat.mod_add_mod]
      exact Nat.mod_mod_of_dvd _ (by decide)
    rw [hslot, h.receives.reports.test (Nat.le_add_right _ _) (by omega), h.mem_accepted,
      h.start_eq]
  free := h.free
  next := fun packet hp hseq => h.next (by rw [hp]; decide) hseq

theorem acceptPacket_other (ch : NetReliableChannel) {packet : NetPacket}
    (h : packet.sequence ≠ ch.remoteSequence) :
    (ch.acceptPacket packet).1.remoteSequence = ch.remoteSequence ∧
      (ch.acceptPacket packet).1.remoteWindowStart = ch.remoteWindowStart := by
  rw [NetReliableChannel.acceptPacket]
  dsimp only
  split
  · exact ⟨rfl, rfl⟩
  · rw [NetReliableChannel.deliver, if_neg h]
    dsimp only
    split <;> exact ⟨rfl, rfl⟩

/-- The window moves past the next expected number. -/
theorem not_sound (h : Inv w s) {packet : NetPacket} (hp : packet.property ≠ .ack)
    (hn : ¬ NotAhead w.channel packet) : ¬ Sound (w.process packet) := by
  have hle := h.expected_le
  have hstart := h.start_le
  have hpos := NeZero.pos windowSize
  have hexp := h.receives.stores.remoteSequence
  rw [NotAhead, Classical.not_imp, Classical.not_imp, not_le] at hn
  obtain ⟨hlt, hahead, hbeyond⟩ := hn
  have hseq := sequence_of_relative s.expected hlt
    (by rw [← hexp, hahead]; exact Int.natCast_nonneg _)
  rw [← hexp, hahead, Int.toNat_natCast] at hseq
  have hmax : 4 * windowSize < halfMaxSequence := by decide
  have hrel : relativeSequenceNumber packet.sequence w.channel.remoteWindowStart =
      ((s.expected + windowSize : ℕ) : ℤ) - s.windowStart := by
    rw [hseq, h.receives.remoteWindowStart,
      relativeSequenceNumber_wrapped (by omega) (by omega)]
  rw [hrel] at hbeyond
  have hmove := NetReliableChannel.moveWindow_spec h.receives h.got_lt
    (i := s.expected + windowSize) (by omega) (by have := maxSequence_eq; omega)
  have hne : packet.sequence ≠
      (w.channel.moveWindow (s.expected + windowSize - s.windowStart)).remoteSequence := by
    change packet.sequence ≠ w.channel.remoteSequence
    rw [hseq, hexp]
    simp only [maxSequence, windowSize, defaultWindowSize]
    omega
  obtain ⟨hsame, hmoved⟩ := acceptPacket_other _ hne
  intro hsound
  have hdistance := hsound.distance
  simp only [ReceiveWindow.process] at hdistance
  rw [h.toOpen.processPacket hp hseq (by omega) (by omega) le_rfl, if_pos (by omega), hsame, hmoved,
    hmove.remoteWindowStart] at hdistance
  change (w.channel.remoteSequence + maxSequence -
    (s.expected + windowSize + 1 - windowSize) % maxSequence) % maxSequence ≤ windowSize at hdistance
  rw [hexp] at hdistance
  simp only [maxSequence, windowSize, defaultWindowSize] at hdistance
  omega

end Inv

/-- The window stays open in every run without a packet exactly one window ahead of the next
expected one, and such a packet is what closes it. -/
theorem sound_of_reachable {ordered : Bool} {id : UInt8} {w : ReceiveWindow}
    (h : Reachable (Started ordered id) (Step NotAhead) w) :
    Sound w ∧ ∀ packet : NetPacket, packet.property = .channeled →
      (Sound (w.process packet) ↔ NotAhead w.channel packet) := by
  obtain ⟨s, hs⟩ : ∃ s, Inv w s := by
    refine h.invariant (P := fun w => ∃ s, Inv w s) ?_ ?_
    · rintro w rfl
      exact ⟨_, Inv.initial ordered id⟩
    · rintro w w' ⟨s, hs⟩ ⟨packet, hp, hn⟩
      exact hs.process (by rw [hp]; decide) hn
  refine ⟨hs.sound, fun packet hp => ?_⟩
  have hp' : packet.property ≠ .ack := by
    rw [hp]
    decide
  refine ⟨fun hsound => by_contra fun hn => hs.not_sound hp' hn hsound, fun hn => ?_⟩
  obtain ⟨s', hs'⟩ := hs.process hp' hn
  exact hs'.sound

/-- The first packet with number zero. -/
def firstPacket : ReceiveWindow :=
  ReceiveWindow.process ⟨.new true 2, 0, []⟩ (.new .channeled 1 NetPacket.three_le_channeled)

theorem sound_of_reachable_first : firstPacket.accepted = [0] ∧ Sound firstPacket ∧
    ∀ packet : NetPacket, packet.property = .channeled →
      (Sound (firstPacket.process packet) ↔ NotAhead firstPacket.channel packet) := by
  refine ⟨by decide +kernel, @sound_of_reachable true 2 _ ?_⟩
  have h0 : Reachable (Started true 2) (Step NotAhead) ⟨.new true 2, 0, []⟩ := .initial rfl
  refine h0.tail (.process _ _ (NetPacket.property_setProperty _ _) ?_)
  unfold NotAhead
  decide +kernel

/-- The packet with number 64 comes first, and the window leaves number zero behind. -/
theorem not_always_sound : ¬ ∀ w, Reachable (Started true 2) (Step fun _ _ => True) w → Sound w := by
  intro h
  have h0 : Reachable (Started true 2) (Step fun _ _ => True) ⟨.new true 2, 0, []⟩ := .initial rfl
  have hsound := h _ (h0.tail (.process _ ((NetPacket.new .channeled 1 (by decide)).setSequence 64)
    (by rw [NetPacket.property_setSequence]; exact NetPacket.property_setProperty _ _) trivial))
  have hdistance := hsound.distance
  revert hdistance
  decide +kernel

end ReceiveWindow

end LiteNet.Channels
