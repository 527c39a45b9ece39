import LiteNet.Manager.DispatchChanges

/-! # The registry over whole runs

Whatever arrives, is called or comes due, and whichever peers are removed, the list,
the two maps, the free numbers and the counter of a manager describe the same peers.
-/

namespace LiteNet.Manager
open Library Wire Relation

namespace NetManager

/-- A manager that also never numbered a peer. -/
structure Fresh (m : NetManager) : Prop extends Initial m where
  peersArray : ∀ i, m.peersArray i = none
  peerIds : m.peerIds = []
  peerIdCounter : m.peerIdCounter = 0

theorem Fresh.registered {m : NetManager} (h : Fresh m) : Registered m := by
  refine ⟨[], ?_, nofun, fun r _ => ⟨h.nextPeer r, h.prevPeer r⟩, fun k r => ?_, fun i r => ?_, ?_⟩
  · rw [h.headPeer]
    exact .nil
  · simp [h.peers k]
  · simp [h.peersArray i]
  · simp [h.peerIds, h.peerIdCounter]

theorem fresh_new (currentTimes : Stream' Int64) (highResolutionTimes : Stream' ℤ)
    (sendResults : Stream' SendResult) :
    Fresh (NetManager.new currentTimes highResolutionTimes sendResults) :=
  { initial_new currentTimes highResolutionTimes sendResults with
    peersArray := fun _ => rfl
    peerIds := rfl
    peerIdCounter := rfl }

/-- A step of the manager, or `remove_peer` for any address. -/
inductive RegistryStep : NetManager → NetManager → Prop
  | act {m m'} (h : Step m m') : RegistryStep m m'
  | removePeer (m) (address : NetAddress) : RegistryStep m (m.removePeerInternal address)

theorem RegistryStep.changes {m m' : NetManager} (h : RegistryStep m m') (hm : Consistent m) :
    Changes fullScope m m' := by
  cases h with
  | act h => exact h.changes hm
  | removePeer address => exact removePeerInternal_changes trivial m address (fun ho => ho.elim)

/-- In every state that is reached, some list of peers is what all five structures describe. -/
theorem registered_of_run {m : NetManager} (h : Reachable Fresh RegistryStep m) :
    Registered m := by
  have hboth : Consistent m ∧ Registered m := by
    apply h.invariant (P := fun m => Consistent m ∧ Registered m)
    · exact fun m hi => ⟨hi.toInitial.consistent, hi.registered⟩
    · intro m m' hm hs
      have hchanges := hs.changes hm.1
      exact ⟨Changes.consistent hchanges hm.1, Changes.registered hchanges hm.2⟩
  exact hboth.2

/-- Two connections, the first of which is made again after its peer was removed. -/
theorem registered_of_run_second :
    Registered (((((NetManager.new (.const 5) (.const 0) (.const .ok)).act
      (.connect ⟨2, 1, 2, 0⟩ [] 0)).removePeerInternal ⟨2, 1, 2, 0⟩).act
        (.connect ⟨2, 1, 3, 0⟩ [] 0)).act (.connect ⟨2, 1, 2, 0⟩ [] 0)) := by
  refine registered_of_run ⟨_, fresh_new _ _ _, .tail (.tail (.tail (.tail .refl
    (.act ⟨.connect _ _ _, trivial, rfl⟩)) (.removePeer _ _)) (.act ⟨.connect _ _ _, trivial, rfl⟩))
      (.act ⟨.connect _ _ _, trivial, rfl⟩)⟩

end NetManager

end LiteNet.Manager
