import LiteNet.Manager.Registry

/-! # Two managers that connect to each other

Each side compares the times of both requests, and equal times by the bytes of the
two addresses. The comparison of bytes goes on after a byte that decides for the
local side, so it asks whether any byte decides for the remote one.
-/

namespace LiteNet.Manager
open Library Wire Channels

namespace NetManager

theorem forall₂_le_antisymm {a b : Bytes} (h : List.Forall₂ (fun x y => x ≤ y) a b)
    (h' : List.Forall₂ (fun x y => x ≤ y) b a) : a = b := by
  induction h with
  | nil => rfl
  | cons hle _ ih =>
    cases h' with
    | cons hge hrest => rw [ih hrest, UInt8.le_antisymm hle hge]

theorem p2pLose_iff {remoteBytes localBytes : Bytes}
    (h : localBytes.length = remoteBytes.length) :
    p2pLose remoteBytes localBytes = true ↔
      ¬ List.Forall₂ (fun lb rb => lb ≤ rb) localBytes remoteBytes := by
  induction remoteBytes generalizing localBytes with
  | nil => simp [p2pLose, List.length_eq_zero_iff.mp h]
  | cons rb remoteBytes ih =>
    cases localBytes with
    | nil => cases h
    | cons lb localBytes =>
      have ih := ih (Nat.succ_injective h)
      rw [p2pLose, List.forall₂_cons]
      by_cases heq : rb = lb
      · rw [if_pos heq, ih, heq, and_iff_right (UInt8.le_refl lb)]
      · rw [if_neg heq]
        by_cases hlt : rb < lb
        · rw [if_pos hlt]
          exact ⟨fun _ hle => UInt8.not_lt.mpr hle.1 hlt, fun _ => rfl⟩
        · rw [if_neg hlt, ih, and_iff_right (UInt8.not_lt.mp hlt)]

/-- The loop finds a byte that decides for the remote side when there is one. -/
theorem p2pLose_reverse (remote target : NetAddress) :
    p2pLose remote.raw.reverse target.raw.reverse = true ↔
      ¬ List.Forall₂ (fun lb rb => lb ≤ rb) target.raw remote.raw := by
  rw [p2pLose_iff (by simp), List.forall₂_reverse_iff]

/-- When an outgoing peer loses against the request of the other side. -/
theorem outgoing_loses_iff {m : NetManager} {r : PeerRef} {request : NetConnectRequestPacket}
    (hs : (m.peerAt r).connectionState = .outgoing) :
    (m.peerProcessConnectRequest r request).2 = .p2pLose ↔
      request.connectionTime < (m.peerAt r).connectTime ∨
        request.connectionTime = (m.peerAt r).connectTime ∧
          ¬ List.Forall₂ (fun lb rb => lb ≤ rb) request.targetAddress.raw
            (m.peerAt r).endpoint.raw := by
  rw [peerProcessConnectRequest, hs, ← p2pLose_reverse]
  dsimp only
  by_cases hlt : request.connectionTime < (m.peerAt r).connectTime
  · simp [hlt]
  · rw [if_neg hlt, or_iff_right hlt]
    split
    · next hlose => simpa using hlose
    · next hlose => simpa using hlose

/-- Of two managers that connect to each other, exactly one loses, unless both chose the same time
and the bytes of their addresses differ in both directions. -/
theorem one_loser_iff {m m' : NetManager} {r r' : PeerRef}
    {request request' : NetConnectRequestPacket}
    (hs : (m.peerAt r).connectionState = .outgoing)
    (hs' : (m'.peerAt r').connectionState = .outgoing)
    (time : request.connectionTime = (m.peerAt r).connectTime)
    (time' : request'.connectionTime = (m'.peerAt r').connectTime)
    (target : request.targetAddress = (m.peerAt r).endpoint)
    (target' : request'.targetAddress = (m'.peerAt r').endpoint)
    (hne : (m.peerAt r).endpoint.raw ≠ (m'.peerAt r').endpoint.raw) :
    ((m.peerProcessConnectRequest r request').2 = .p2pLose ↔
        ¬ (m'.peerProcessConnectRequest r' request).2 = .p2pLose) ↔
      (m.peerAt r).connectTime ≠ (m'.peerAt r').connectTime ∨
        List.Forall₂ (fun a b => a ≤ b) (m.peerAt r).endpoint.raw (m'.peerAt r').endpoint.raw ∨
        List.Forall₂ (fun b a => b ≤ a) (m'.peerAt r').endpoint.raw (m.peerAt r).endpoint.raw := by
  rw [outgoing_loses_iff hs, outgoing_loses_iff hs', time, time', target, target']
  have hanti : List.Forall₂ (fun a b => a ≤ b) (m.peerAt r).endpoint.raw
      (m'.peerAt r').endpoint.raw → ¬ List.Forall₂ (fun b a => b ≤ a) (m'.peerAt r').endpoint.raw
        (m.peerAt r).endpoint.raw := fun h h' => hne (forall₂_le_antisymm h h')
  generalize (m.peerAt r).connectTime = t, (m'.peerAt r').connectTime = t'
  rw [Int64.lt_iff_toInt_lt, Int64.lt_iff_toInt_lt]
  by_cases heq : t = t'
  · -- the addresses decide, and cannot agree in both directions
    subst heq
    simp only [lt_irrefl, false_or, true_and, ne_eq, not_true_eq_false, not_not]
    tauto
  · have hne' : t.toInt ≠ t'.toInt := fun h => heq (Int64.toInt.inj h)
    simp only [heq, Ne.symm heq, false_and, or_false, ne_eq, not_false_eq_true, true_or, iff_true]
    omega

/-- Two hosts whose ports and whose addresses differ in opposite directions. -/
def hostA : NetAddress := ⟨2, 1, 2, 0⟩
def hostB : NetAddress := ⟨2, 2, 1, 0⟩

/-- A manager that connects to a host at time 5. -/
def connecting (remote : NetAddress) : NetManager :=
  ((NetManager.new (.const 5) (.const 0) (.const .ok)).connect remote [] 0).1

/-- Its request, as the host reads it. -/
def requestTo (target : NetAddress) : NetConnectRequestPacket where
  connectionTime := 5
  connectionNumber := 0
  targetAddress := target
  data := ⟨[], 0, 0⟩
  peerId := 0
  packet := .empty

theorem one_loser_iff_hosts :
    (((connecting hostB).peerProcessConnectRequest 0 (requestTo hostA)).2 = .p2pLose ↔
        ¬ ((connecting hostA).peerProcessConnectRequest 0 (requestTo hostB)).2 = .p2pLose) ↔
      ((connecting hostB).peerAt 0).connectTime ≠ ((connecting hostA).peerAt 0).connectTime ∨
        List.Forall₂ (fun a b => a ≤ b) ((connecting hostB).peerAt 0).endpoint.raw
          ((connecting hostA).peerAt 0).endpoint.raw ∨
        List.Forall₂ (fun b a => b ≤ a) ((connecting hostA).peerAt 0).endpoint.raw
          ((connecting hostB).peerAt 0).endpoint.raw :=
  @one_loser_iff (connecting hostB) (connecting hostA) 0 0 (requestTo hostB) (requestTo hostA)
    rfl rfl rfl rfl rfl rfl (by decide)

/-- Here both lose. -/
theorem both_lose :
    ¬ ∀ (m m' : NetManager) (r r' : PeerRef) (request request' : NetConnectRequestPacket),
      (m.peerAt r).connectionState = .outgoing → (m'.peerAt r').connectionState = .outgoing →
      request.connectionTime = (m.peerAt r).connectTime →
      request'.connectionTime = (m'.peerAt r').connectTime →
      request.targetAddress = (m.peerAt r).endpoint →
      request'.targetAddress = (m'.peerAt r').endpoint →
      (m.peerAt r).endpoint.raw ≠ (m'.peerAt r').endpoint.raw →
      ((m.peerProcessConnectRequest r request').2 = .p2pLose ↔
        ¬ (m'.peerProcessConnectRequest r' request).2 = .p2pLose) := by
  intro h
  have hone := h (connecting hostB) (connecting hostA) 0 0 (requestTo hostB) (requestTo hostA)
    rfl rfl rfl rfl rfl rfl (by decide)
  revert hone
  decide +kernel

end NetManager

end LiteNet.Manager
