import LiteNet.Manager.Network

/-! # The numbers of both sides of a session

An accept names the session that it is for by time and number, so the number of a
connected client is one under which the server accepted it. The server may accept the
same request again when its peer has ended, under the same time and the next number.
-/

namespace LiteNet.Manager.Network
open Library Wire NetManager

variable {ι : Type*} [DecidableEq ι] {hosts : Hosts ι} {net : ι → NetManager} {i j : ι}
  {r s : PeerRef}

/-- The host accepted no session of the peer's address under its connect time but that of the
peer. -/
def OnlyAccepted (m : NetManager) (s : PeerRef) : Prop :=
  ∀ s' < m.peerCount, (m.peerAt s').connectAcceptPacket.isSome = true →
    (m.peerAt s').endpoint.key = (m.peerAt s).endpoint.key →
    (m.peerAt s').connectTime = (m.peerAt s).connectTime → s' = s

/-- The number of a connected client is one that the server accepted it under, and that of the
server's peer where there is no other. -/
theorem handshake_agrees (h : Reachable Initial (Step hosts) net) (hr : Joined (net i) r)
    (hkey : ((net i).peerAt r).endpoint.key = (hosts.address j).key)
    (hother : ((net j).peerAt s).endpoint.key = (hosts.address i).key)
    (htime : ((net j).peerAt s).connectTime = ((net i).peerAt r).connectTime) :
    (net j).Accepted (hosts.address i).key ((net j).peerAt s).connectTime
        ((net i).peerAt r).connectNumber ∧
      (OnlyAccepted (net j) s →
        ((net j).peerAt s).connectNumber = ((net i).peerAt r).connectNumber) := by
  have haccepted := (invariant_of_reachable h).agreeing i j r hr hkey
  rw [← htime] at haccepted
  refine ⟨haccepted, fun honly => ?_⟩
  obtain ⟨s', hs', hsome, hk, ht, hn⟩ := haccepted
  rw [← honly s' hs' hsome (hk.trans hother.symm) ht, hn]

theorem handshake_agrees_joinedHosts : ((joinedHosts true).peerAt 0).connectNumber =
    ((joinedHosts false).peerAt 0).connectNumber := by
  have hone : (joinedHosts true).peerCount = 1 := by decide +kernel
  refine (handshake_agrees (j := true) (s := 0) joinedHosts_reachable joinedHosts_joined
    (by decide +kernel) (by decide +kernel) (by decide +kernel)).2 ?_
  intro s' hs' _ _ _
  omega

/-- The server ends its session, and before the client hears of it the request arrives once more and
is accepted. -/
def rejoinedHosts : Bool → NetManager :=
  act twoHosts (deliverLast (act twoHosts joinedHosts (.act true (.disconnectAll none 0 0))) false)
    (.act true (.accept 1))

theorem rejoinedHosts_reachable : Reachable Initial (Step twoHosts) rejoinedHosts := by
  have hended := joinedHosts_reachable.tail
    ⟨.act true (.disconnectAll none 0 0), ⟨trivial, (fun _ _ h => by cases h)⟩, rfl⟩
  have hasked := hended.tail (deliverLast_step (i := false) (by decide +kernel) (by decide +kernel))
  exact hasked.tail
    ⟨.act true (.accept 1), ⟨show 1 < _ by decide +kernel, (fun _ _ h => by cases h)⟩, rfl⟩

theorem not_always_numbers_equal : ¬ ∀ net : Bool → NetManager,
    Reachable Initial (Step twoHosts) net → ∀ r s,
    (net false).tryGetPeer (twoHosts.address true) = some r →
    (net true).tryGetPeer (twoHosts.address false) = some s →
    ((net false).peerAt r).connectionState = .connected →
    ((net true).peerAt s).connectionState = .connected →
    ((net false).peerAt r).connectTime = ((net true).peerAt s).connectTime →
    ((net false).peerAt r).connectNumber = ((net true).peerAt s).connectNumber := by
  intro h
  have hnumbers := h rejoinedHosts rejoinedHosts_reachable 0 1 (by decide +kernel)
    (by decide +kernel) (by decide +kernel) (by decide +kernel) (by decide +kernel)
  revert hnumbers
  decide +kernel

end LiteNet.Manager.Network
