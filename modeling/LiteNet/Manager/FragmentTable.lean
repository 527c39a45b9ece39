import LiteNet.Manager.ReceiveChanges

/-! # The table of incomplete messages

A fragment of a message that is not in the table gets an entry before it is checked,
and a rejected fragment leaves its entry there. An entry that nothing was stored in
stays until a message of the same id is complete.
-/

namespace LiteNet.Manager
open Library Wire Channels

/-- The payload of a stored fragment. -/
def payloadSize : Option NetPacket → ℕ
  | none => 0
  | some packet => packet.size - fragmentedHeaderTotalSize

namespace IncomingFragments

/-- The entry that the first fragment of a message makes. -/
def fresh (packet : NetPacket) : IncomingFragments :=
  ⟨List.replicate packet.totalFragments none, 0, 0, packet.channelId⟩

/-- The check that a fragment does not pass. -/
def Rejects (held : IncomingFragments) (packet : NetPacket) : Prop :=
  held.fragments.length ≤ packet.fragmentPart ∨
    (held.fragments.getD packet.fragmentPart none).isSome ∨ packet.channelId ≠ held.channelId

instance (held : IncomingFragments) (packet : NetPacket) : Decidable (held.Rejects packet) :=
  inferInstanceAs (Decidable (_ ∨ _ ∨ _))

def store (held : IncomingFragments) (packet : NetPacket) : IncomingFragments where
  fragments := held.fragments.set packet.fragmentPart (some packet)
  receivedCount := held.receivedCount + 1
  totalSize := held.totalSize + (packet.size - fragmentedHeaderTotalSize)
  channelId := held.channelId

/-- The counters say what is stored. -/
structure Counted (held : IncomingFragments) : Prop where
  received : held.receivedCount = held.fragments.countP Option.isSome
  total : held.totalSize = (held.fragments.map payloadSize).sum

/-- An entry of an incomplete message. -/
structure Sound (held : IncomingFragments) : Prop extends Counted held where
  stored : 1 ≤ held.fragments.countP Option.isSome
  incomplete : held.fragments.countP Option.isSome < held.fragments.length

variable {held : IncomingFragments} {packet : NetPacket}

theorem fresh_counted (packet : NetPacket) : (fresh packet).Counted where
  received := by
    rw [fresh, eq_comm, List.countP_eq_zero]
    intro slot hslot
    simp [List.eq_of_mem_replicate hslot]
  total := by simp [fresh, payloadSize]

/-- A new entry rejects its own fragment only for its part. -/
theorem fresh_rejects_iff (packet : NetPacket) :
    (fresh packet).Rejects packet ↔ packet.totalFragments ≤ packet.fragmentPart := by
  have hfree : ((fresh packet).fragments.getD packet.fragmentPart none).isSome = false := by
    rw [fresh, List.getD_eq_getElem?_getD, List.getElem?_replicate]
    split <;> rfl
  rw [Rejects, hfree, fresh, List.length_replicate]
  simp

/-- A fragment that is not rejected has a free slot. -/
theorem free_slot (h : ¬ held.Rejects packet) :
    ∃ l₁ l₂, held.fragments = l₁ ++ none :: l₂ ∧
      held.fragments.set packet.fragmentPart (some packet) = l₁ ++ some packet :: l₂ := by
  rw [Rejects, not_or, not_or, not_le] at h
  obtain ⟨hlt, hfree, -⟩ := h
  have hslot : held.fragments[packet.fragmentPart] = none := by
    simpa [List.getD_eq_getElem?_getD, List.getElem?_eq_getElem hlt] using hfree
  refine ⟨held.fragments.take packet.fragmentPart, held.fragments.drop (packet.fragmentPart + 1),
    ?_, ?_⟩
  · rw [← hslot, List.getElem_cons_drop, List.take_append_drop]
  · rw [List.set_eq_take_append_cons_drop, if_pos hlt]

theorem Counted.store (h : held.Counted) (hfree : ¬ held.Rejects packet) :
    (held.store packet).Counted := by
  obtain ⟨l₁, l₂, hbefore, hafter⟩ := free_slot hfree
  have hreceived := h.received
  have htotal := h.total
  rw [hbefore] at hreceived htotal
  constructor
  · rw [IncomingFragments.store, hafter, hreceived]
    simp [List.countP_append]
    omega
  · rw [IncomingFragments.store, hafter, htotal]
    simp [payloadSize]
    omega

/-- An entry that a fragment was stored in is sound unless the message is complete. -/
theorem Counted.sound_store (h : held.Counted) (hfree : ¬ held.Rejects packet)
    (hmore : (held.store packet).receivedCount ≠ (held.store packet).fragments.length) :
    (held.store packet).Sound := by
  have hstored := h.store hfree
  have hle : (held.store packet).fragments.countP Option.isSome ≤
      (held.store packet).fragments.length := List.countP_le_length
  have hreceived := hstored.received
  refine ⟨hstored, ?_, ?_⟩
  · rw [← hreceived]
    exact Nat.le_add_left 1 _
  · omega

end IncomingFragments

namespace NetPeer

/-- The entry that a fragment is checked against. -/
def entryFor (p : NetPeer) (packet : NetPacket) : IncomingFragments :=
  (p.holdedFragments packet.fragmentId).getD (.fresh packet)

/-- The table after a fragment. -/
def tableAfter (p : NetPeer) (packet : NetPacket) : ℕ → Option IncomingFragments :=
  let held := p.entryFor packet
  Function.update p.holdedFragments packet.fragmentId <|
    if held.Rejects packet then some held
    else if (held.store packet).receivedCount ≠ (held.store packet).fragments.length then
      some (held.store packet)
    else none

/-- Every entry is one of an incomplete message. -/
def TableSound (p : NetPeer) : Prop := ∀ id held, p.holdedFragments id = some held → held.Sound

end NetPeer

theorem three_le_fragmented : 3 ≤ fragmentHeaderSize + PacketProperty.channeled.getHeaderSize := by
  decide

namespace NetManager

section Table

variable {m : NetManager} {r : PeerRef} {packet : NetPacket}

theorem deliverFragments_peerAt (m : NetManager) (method : DeliveryMethod) (channelNumber : UInt8)
    (held : IncomingFragments) (endpoint : NetAddress) :
    (m.deliverFragments method channelNumber held endpoint).peerAt = m.peerAt := by
  have haside := (m.poolGetPacket_aside held.totalSize).trans
    (assemble_aside held.fragments 0 (m.poolGetPacket held.totalSize).1 _)
  rw [deliverFragments]
  split
  · exact haside.peerAt
  · exact haside.peerAt

theorem addReliablePacket_table (hfragment : packet.isFragmented = true)
    (method : DeliveryMethod) :
    ((m.addReliablePacket r method packet).peerAt r).holdedFragments =
      (m.peerAt r).tableAfter packet := by
  have hholds : ∀ entry, ((m.holdFragments r packet.fragmentId entry).peerAt r).holdedFragments =
      Function.update (m.peerAt r).holdedFragments packet.fragmentId entry := by
    intro entry
    rw [holdFragments, setPeer_self]
  rw [addReliablePacket, NetPeer.tableAfter, NetPeer.entryFor, IncomingFragments.fresh, hfragment]
  dsimp only
  generalize ((m.peerAt r).holdedFragments packet.fragmentId).getD _ = held
  rw [if_neg (by simp)]
  by_cases hrejects : held.Rejects packet
  · have hraw : held.fragments.length ≤ packet.fragmentPart ∨
        (held.fragments.getD packet.fragmentPart none).isSome ∨
          packet.channelId ≠ held.channelId := hrejects
    rw [if_pos hraw, if_pos hrejects, (poolRecycle_aside _ _).peerAt, hholds]
  · have hraw : ¬ (held.fragments.length ≤ packet.fragmentPart ∨
        (held.fragments.getD packet.fragmentPart none).isSome ∨
          packet.channelId ≠ held.channelId) := hrejects
    rw [if_neg hraw, if_neg hrejects]
    by_cases hmore : (held.store packet).receivedCount ≠ (held.store packet).fragments.length
    · rw [if_pos hmore]
      rw [IncomingFragments.store] at hmore
      rw [if_pos hmore, hholds]
      rfl
    · rw [if_neg hmore]
      rw [IncomingFragments.store] at hmore
      rw [if_neg hmore, deliverFragments_peerAt, hholds]

/-- A fragment keeps the table: its entries are sound, and a rejected fragment changes nothing. -/
def KeepsTable (m : NetManager) (r : PeerRef) (method : DeliveryMethod) (packet : NetPacket) :
    Prop :=
  ((m.addReliablePacket r method packet).peerAt r).TableSound ∧
    (((m.peerAt r).entryFor packet).Rejects packet →
      ((m.addReliablePacket r method packet).peerAt r).holdedFragments =
        (m.peerAt r).holdedFragments)

/-- A fragment keeps a sound table unless its message is new and its part is beyond the total it
claims. -/
theorem keepsTable_iff (hfragment : packet.isFragmented = true) (method : DeliveryMethod)
    (htable : (m.peerAt r).TableSound) :
    m.KeepsTable r method packet ↔
      ((m.peerAt r).holdedFragments packet.fragmentId = none →
        packet.fragmentPart < packet.totalFragments) := by
  have hafter := addReliablePacket_table (r := r) (m := m) hfragment method
  rw [KeepsTable, NetPeer.TableSound, hafter, NetPeer.tableAfter]
  constructor
  · rintro ⟨hsound, -⟩ hnew
    by_contra hbeyond
    have hentry : (m.peerAt r).entryFor packet = .fresh packet := by
      rw [NetPeer.entryFor, hnew, Option.getD_none]
    rw [hentry, if_pos ((IncomingFragments.fresh_rejects_iff packet).mpr (not_lt.mp hbeyond))]
      at hsound
    have hstored := (hsound packet.fragmentId _ (Function.update_self ..)).stored
    have hreceived := (IncomingFragments.fresh_counted packet).received
    rw [← hreceived] at hstored
    exact absurd hstored (by simp [IncomingFragments.fresh])
  · intro hpart
    have hcounted : ((m.peerAt r).entryFor packet).Counted := by
      rw [NetPeer.entryFor]
      cases hheld : (m.peerAt r).holdedFragments packet.fragmentId with
      | none => exact IncomingFragments.fresh_counted packet
      | some held => exact (htable _ held hheld).toCounted
    by_cases hrejects : ((m.peerAt r).entryFor packet).Rejects packet
    · have hheld : (m.peerAt r).holdedFragments packet.fragmentId =
          some ((m.peerAt r).entryFor packet) := by
        cases hheld : (m.peerAt r).holdedFragments packet.fragmentId with
        | some held => rw [NetPeer.entryFor, hheld, Option.getD_some]
        | none =>
          rw [NetPeer.entryFor, hheld, Option.getD_none] at hrejects
          have hbeyond := (IncomingFragments.fresh_rejects_iff packet).mp hrejects
          exact absurd (hpart hheld) (not_lt.mpr hbeyond)
      rw [if_pos hrejects, ← hheld, Function.update_eq_self]
      exact ⟨htable, fun _ => rfl⟩
    · refine ⟨?_, fun h => absurd h hrejects⟩
      rw [if_neg hrejects]
      intro id held hid
      by_cases hsame : id = packet.fragmentId
      · rw [hsame, Function.update_self] at hid
        split_ifs at hid with hmore
        cases hid
        exact hcounted.sound_store hrejects hmore
      · rw [Function.update_of_ne hsame] at hid
        exact htable id held hid

/-- Fragments that a peer is given one after another, each with the method of its channel. -/
def addFragments (m : NetManager) (r : PeerRef) (packets : List (DeliveryMethod × NetPacket)) :
    NetManager :=
  packets.foldl (fun m packet => m.addReliablePacket r packet.1 packet.2) m

theorem addFragments_sound (packets : List (DeliveryMethod × NetPacket))
    (htable : (m.peerAt r).TableSound)
    (hkeeps : ∀ before p, before ++ [p] <+: packets →
      (m.addFragments r before).KeepsTable r p.1 p.2) :
    ((m.addFragments r packets).peerAt r).TableSound := by
  induction packets using List.reverseRecOn with
  | nil => exact htable
  | append_singleton before p ih =>
    rw [addFragments, List.foldl_concat]
    exact (hkeeps before p List.prefix_rfl).1

/-- In every sequence of fragments, all of them keep the table exactly when none that begins a
message has a part beyond the total it claims. -/
theorem addFragments_keepsTable_iff (m : NetManager) (r : PeerRef)
    (packets : List (DeliveryMethod × NetPacket)) (htable : (m.peerAt r).TableSound)
    (hfragment : ∀ p ∈ packets, p.2.isFragmented = true) :
    (∀ before p, before ++ [p] <+: packets →
        (m.addFragments r before).KeepsTable r p.1 p.2) ↔
      ∀ before p, before ++ [p] <+: packets →
        (((m.addFragments r before).peerAt r).holdedFragments p.2.fragmentId = none →
          p.2.fragmentPart < p.2.totalFragments) := by
  induction packets using List.reverseRecOn with
  | nil => simp
  | append_singleton before p ih =>
    rw [forall_prefix_concat, forall_prefix_concat,
      ← ih (fun q hq => hfragment q (List.mem_append_left _ hq))]
    refine and_congr_right (fun hkeeps => ?_)
    exact keepsTable_iff (hfragment p (by simp)) p.1 (addFragments_sound before htable hkeeps)

/-- A fragment of no fragments at all. -/
def emptyFragment : NetPacket :=
  (NetPacket.new .channeled fragmentHeaderSize three_le_fragmented).markFragmented

/-- The first of two fragments. -/
def firstFragment : NetPacket := emptyFragment.setTotalFragments 2

theorem tableSound_new (r : PeerRef) :
    ((NetManager.new (.const 0) (.const 0) (.const .ok)).peerAt r).TableSound := by
  intro id held hid
  cases hid

def twice : List (DeliveryMethod × NetPacket) :=
  [(.reliableOrdered, firstFragment), (.reliableOrdered, firstFragment)]

theorem addFragments_keepsTable_iff_twice :
    (∀ before p, before ++ [p] <+: twice →
        ((NetManager.new (.const 0) (.const 0) (.const .ok)).addFragments 0 before).KeepsTable 0
          p.1 p.2) ↔
      ∀ before p, before ++ [p] <+: twice →
        ((((NetManager.new (.const 0) (.const 0) (.const .ok)).addFragments 0 before).peerAt
            0).holdedFragments p.2.fragmentId = none →
          p.2.fragmentPart < p.2.totalFragments) := by
  have hfragment : firstFragment.isFragmented = true := by decide +kernel
  exact addFragments_keepsTable_iff _ 0 _ (tableSound_new 0) (by simp [twice, hfragment])

/-- A rejected fragment leaves an entry without fragments. -/
theorem emptyFragment_left :
    ¬ ∀ (m : NetManager) (r : PeerRef) (packets : List (DeliveryMethod × NetPacket)),
      (m.peerAt r).TableSound → (∀ p ∈ packets, p.2.verify = true ∧ p.2.isFragmented = true) →
      ∀ before p, before ++ [p] <+: packets →
        (m.addFragments r before).KeepsTable r p.1 p.2 := by
  intro h
  have hfragment : emptyFragment.verify = true ∧ emptyFragment.isFragmented = true := by
    decide +kernel
  have hkeeps := h (NetManager.new (.const 0) (.const 0) (.const .ok)) 0
    [(.reliableOrdered, emptyFragment)] (tableSound_new 0) (by simpa using hfragment) []
    (.reliableOrdered, emptyFragment) List.prefix_rfl
  have hpart := (keepsTable_iff hfragment.2 _ (tableSound_new 0)).mp hkeeps rfl
  revert hpart
  decide +kernel

end Table

end NetManager

end LiteNet.Manager
