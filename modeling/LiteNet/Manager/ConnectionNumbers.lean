import LiteNet.Manager.DispatchChanges

/-! # Connection numbers over whole runs

Every number a session begins with is checked when it is parsed or reduced when it is
counted up, except the number of a first connection, which is never assigned.
-/

namespace LiteNet.Manager
open Library Wire Relation

namespace NetManager

/-- The numbers of all peers have two bits. -/
def Numbers (m : NetManager) : Prop :=
  ∀ r < m.peerCount, (m.peerAt r).connectNumber.toNat < maxConnectionNumber

/-- A scope in which sessions begin with numbers of two bits. -/
def numberScope : Scope :=
  { fullScope with
    accepts := fun _ n => n.toNat < maxConnectionNumber
    opens := fun n => n.toNat < maxConnectionNumber }

theorem numberScope_open : numberScope.Open where
  closes := trivial
  registers := trivial
  opens := fun _ hn => hn
  plain := fun _ _ _ => trivial
  accept := fun _ _ _ _ _ => trivial

section Changes

variable {m m' : NetManager}

theorem Numbers.setPeer (hn : Numbers m) (r : PeerRef) {p : NetPeer}
    (h : r < m.peerCount → p.connectNumber.toNat < maxConnectionNumber) :
    Numbers (m.setPeer r p) := by
  intro r' hr'
  by_cases he : r' = r
  · subst he
    rw [setPeer_self]
    exact h hr'
  · rw [setPeer_of_ne _ he]
    exact hn r' hr'

theorem Change.numbers (h : Change numberScope m m') (hn : Numbers m) : Numbers m' := by
  have hkeep : ∀ r {p : NetPeer}, p.connectNumber = (m.peerAt r).connectNumber →
      Numbers (m.setPeer r p) := fun r p hp => hn.setPeer r (fun hr => hp ▸ hn r hr)
  cases h with
  | aside h =>
    intro r hr
    rw [h.peerAt]
    exact hn r (h.peerCount ▸ hr)
  | register same registers peers requests keeps =>
    intro r hr
    rw [same.peerAt]
    exact hn r (same.peerCount ▸ hr)
  | touch r same state number => exact hkeep r number
  | emit d emits => exact hn
  | note e about => exact hn
  | report r e peer type state => exact hn
  | close r p ds notes e closes same number before after emits about type peer result =>
    intro r' hr'
    rw [result.peerAt]
    exact hkeep r number r' (result.peerCount ▸ hr')
  | finish r closes before => exact hkeep r rfl
  | establish r p e same accepts before after type peer => exact hn.setPeer r (fun _ => accepts)
  | create p ds notes es registers opens wellFormed emits about announce result peers own others
      keeps =>
    intro r hr
    have hcount : m'.peerCount = m.peerCount + 1 := result.peerCount
    have hat : m'.peerAt = Function.update m.peerAt m.peerCount p := result.peerAt
    rw [hat]
    rcases Nat.lt_succ_iff_lt_or_eq.mp (hcount ▸ hr) with hlt | rfl
    · rw [Function.update_of_ne hlt.ne]
      exact hn r hlt
    · rw [Function.update_self]
      exact opens

theorem Changes.numbers (h : Changes numberScope m m') (hn : Numbers m) : Numbers m' :=
  preserved_of_run (P := Numbers) (fun _ _ hn hs => Change.numbers hs hn) hn h

end Changes

/-- The number of an accept was checked when it was parsed. -/
theorem fromData_accept_number {packet : NetPacket} {accept : NetConnectAcceptPacket}
    (h : NetConnectAcceptPacket.fromData packet = some accept) :
    accept.connectionNumber.toNat < maxConnectionNumber := by
  rw [NetConnectAcceptPacket.fromData] at h
  split at h
  · cases h
  · dsimp only at h
    split at h
    · cases h
    · next hn =>
      split at h
      · cases h
      · split at h
        · cases h
        · cases h
          exact not_le.mp hn

/-- What a first connection reads from the variable that was never assigned has two bits. -/
def Action.Assigned (m : NetManager) : Action → Prop
  | .connect address _ uninitialized => m.running = true →
    m.connectionRequests address.key = none → m.peers address.key = none →
      uninitialized.toNat < maxConnectionNumber
  | _ => True

/-- A step in which no first connection reads a larger number. -/
def AssignedStep (m m' : NetManager) : Prop :=
  ∃ a : Action, a.Enabled m ∧ a.Assigned m ∧ m.act a = m'

theorem AssignedStep.changes {m m' : NetManager} (h : AssignedStep m m') (hm : Consistent m) :
    Changes numberScope m m' := by
  obtain ⟨a, ha, hassigned, rfl⟩ := h
  apply act_changes numberScope_open hm ha
  refine ⟨fun bytes addr _ => ⟨fun _ accept haccept => ?_, fun _ _ _ _ _ => trivial⟩,
    fun _ _ => ⟨id, fun _ => trivial⟩, fun address connectData uninitialized he => ?_,
    fun q hq => ⟨trivial, fun _ _ => trivial, ?_⟩⟩
  · exact fromData_accept_number haccept
  · subst he
    exact hassigned
  · apply hm.books.number q
    cases a <;> cases hq <;> exact ha

/-- The peer that a first connection makes has whatever number was read. -/
theorem connect_unassigned (m : NetManager) (address : NetAddress) (connectData : Bytes)
    (uninitialized : UInt8) (hrunning : m.running = true)
    (hrequest : m.connectionRequests address.key = none) (hpeer : m.peers address.key = none) :
    (((m.connect address connectData uninitialized).1).peerAt m.peerCount).connectNumber =
      uninitialized := by
  have hnumbered := (Numbered.getNextPeerId m).aside (getCurrentTime_aside m.getNextPeerId.2)
  have hfresh : m.getNextPeerId.2.getCurrentTime.2.peers address.key = none := by
    rw [hnumbered.peers]
    exact hpeer
  rw [connect, hrunning, hrequest, hpeer]
  simp only [Bool.not_true, Bool.false_eq_true, if_false, Option.isSome_none]
  rw [newOutgoing, ← hnumbered.peerCount]
  refine congrArg NetPeer.connectNumber (newPeer_registers ?_ _).1
  exact hfresh

/-- In every state of a run in which the numbers of first connections happen to have two bits, all
numbers do, and stamping one on a packet changes nothing but the number that is read back. -/
theorem numbers_of_run {m : NetManager} (h : Reachable Initial AssignedStep m) {r : PeerRef}
    (hr : r < m.peerCount) (packet : NetPacket) :
    (m.peerAt r).connectNumber.toNat < maxConnectionNumber ∧
      (packet.setConnectionNumber (m.peerAt r).connectNumber).isFragmented = packet.isFragmented ∧
      (packet.setConnectionNumber (m.peerAt r).connectNumber).property = packet.property ∧
      (packet.setConnectionNumber (m.peerAt r).connectNumber).connectionNumber =
        (m.peerAt r).connectNumber := by
  have hboth : Consistent m ∧ Numbers m := by
    apply h.invariant (P := fun m => Consistent m ∧ Numbers m)
    · intro m hi
      exact ⟨hi.consistent, fun r hr => absurd hr (by rw [hi.peerCount]; exact Nat.not_lt_zero r)⟩
    · intro m m' hm hs
      have hchanges := hs.changes hm.1
      exact ⟨Changes.consistent hchanges hm.1, Changes.numbers hchanges hm.2⟩
  have hn := hboth.2 r hr
  refine ⟨hn, packet.isFragmented_setConnectionNumber _ hn, packet.property_setConnectionNumber _, ?_⟩
  rw [NetPacket.connectionNumber_setConnectionNumber, NetPacket.and_three_of_lt hn]

theorem numbers_of_run_connected : ((NetManager.new (.const 5) (.const 0) (.const .ok)).act
    (.connect ⟨2, 1, 2, 0⟩ [] 3)).peerCount = 1 ∧
      (((NetManager.new (.const 5) (.const 0) (.const .ok)).act
        (.connect ⟨2, 1, 2, 0⟩ [] 3)).peerAt 0).connectNumber.toNat < maxConnectionNumber := by
  refine ⟨by decide +kernel, (numbers_of_run ((Reachable.initial (initial_new _ _ _)).tail
    ⟨.connect _ _ _, trivial, fun _ _ _ => ?_, rfl⟩) (by decide +kernel) .empty).1⟩
  decide

/-- With 4 in that variable every packet that is stamped claims to be a fragment. -/
theorem not_always_numbers : ¬ ∀ m, Reachable Initial Step m → ∀ r < m.peerCount,
    ∀ packet : NetPacket, (m.peerAt r).connectNumber.toNat < maxConnectionNumber ∧
      (packet.setConnectionNumber (m.peerAt r).connectNumber).isFragmented = packet.isFragmented ∧
      (packet.setConnectionNumber (m.peerAt r).connectNumber).property = packet.property ∧
      (packet.setConnectionNumber (m.peerAt r).connectNumber).connectionNumber =
        (m.peerAt r).connectNumber := by
  intro h
  have hreach : Reachable Initial Step ((NetManager.new (.const 5) (.const 0) (.const .ok)).act
      (.connect ⟨2, 1, 2, 0⟩ [] 4)) :=
    (Reachable.initial (initial_new _ _ _)).tail ⟨.connect _ _ _, trivial, rfl⟩
  have hstamped := (h _ hreach 0 (by decide +kernel) .empty).2.1
  exact absurd hstamped (by decide +kernel)

end NetManager

end LiteNet.Manager
