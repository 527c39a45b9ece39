import LiteNet.Manager.Change
import LiteNet.Manager.Registry

/-! # The books of a manager

Adding and removing a peer keeps the map, the array, the list and the numbers of the
registry in step, and a request waits under its address until it is answered.
-/

namespace LiteNet.Manager
open Library Wire

namespace NetManager

theorem removePeerInternal_eq (m : NetManager) {address : NetAddress} {r : PeerRef}
    (h : m.peers address.key = some r) : m.removePeerInternal address = { m with
      peers := Function.update m.peers address.key none
      headPeer := if m.headPeer = some r then m.nextPeer r else m.headPeer
      nextPeer := DoublyLinked.eraseNext m.nextPeer m.prevPeer r
      prevPeer := DoublyLinked.erasePrev m.nextPeer m.prevPeer r
      peersArray := Function.update m.peersArray (m.peerAt r).id none
      peerIds := m.peerIds ++ [(m.peerAt r).id] } := by
  rw [removePeerInternal, h, DoublyLinked.eraseNext, DoublyLinked.erasePrev]
  dsimp only
  cases m.nextPeer r <;> cases m.prevPeer r <;> rfl

theorem addPeer_eq (m : NetManager) (r : PeerRef) : m.addPeer r = { m with
    nextPeer := DoublyLinked.pushNext m.nextPeer m.headPeer r
    prevPeer := DoublyLinked.pushPrev m.prevPeer m.headPeer r
    headPeer := some r
    peers := if (m.peers (m.peerAt r).endpoint.key).isSome then m.peers
      else Function.update m.peers (m.peerAt r).endpoint.key (some r)
    peersArray := Function.update m.peersArray (m.peerAt r).id (some r) } := by
  rw [addPeer]
  cases hhead : m.headPeer <;> rfl

end NetManager

namespace InRegistry

variable {m : NetManager} {listed : List PeerRef}

theorem nodup (h : InRegistry m listed) :
    (listed.map (fun r => (m.peerAt r).id) ++ m.peerIds).Nodup :=
  h.ids.nodup_iff.mpr List.nodup_range

theorem id_injective (h : InRegistry m listed) {q r : PeerRef} (hq : q ∈ listed) (hr : r ∈ listed)
    (hid : (m.peerAt q).id = (m.peerAt r).id) : q = r :=
  List.inj_on_of_nodup_map (List.nodup_append.mp h.nodup).1 hq hr hid

theorem key_injective (h : InRegistry m listed) {q r : PeerRef} (hq : q ∈ listed) (hr : r ∈ listed)
    (hkey : (m.peerAt q).endpoint.key = (m.peerAt r).endpoint.key) : q = r := by
  have hfound := (h.peers _ q).mpr ⟨hq, hkey⟩
  rw [(h.peers _ r).mpr ⟨hr, rfl⟩] at hfound
  exact (Option.some.inj hfound).symm

/-- A peer that is found is taken out of all five. -/
theorem removePeerInternal (h : InRegistry m listed) {address : NetAddress} {r : PeerRef}
    (hr : m.peers address.key = some r) :
    InRegistry (m.removePeerInternal address) (listed.erase r) := by
  obtain ⟨hmem, hkey⟩ := (h.peers _ r).mp hr
  have hlinked := h.linked.erase hmem
  have herase : ∀ q, q ∈ listed.erase r ↔ q ≠ r ∧ q ∈ listed :=
    fun q => h.linked.nodup.mem_erase_iff
  rw [m.removePeerInternal_eq hr]
  refine ⟨hlinked, fun q hq => h.made q ((herase q).mp hq).2, fun q hq => ?_, fun k q => ?_,
    fun i q => ?_, ?_⟩
  · have hq' : q ∉ listed := fun hm => absurd (h.made q hm) (not_lt.mpr hq)
    have hnone := h.unlinked q hq
    exact ⟨(h.linked.eraseNext_of_not_mem hmem hq').trans hnone.1,
      (h.linked.erasePrev_of_not_mem hmem hq').trans hnone.2⟩
  · change Function.update m.peers address.key none k = some q ↔ _
    rw [herase]
    by_cases hk : k = address.key
    · rw [hk, Function.update_self]
      constructor
      · exact nofun
      · rintro ⟨⟨hne, hq⟩, hqk⟩
        exact absurd (h.key_injective hq hmem (hqk.trans hkey.symm)) hne
    · rw [Function.update_of_ne hk, h.peers]
      constructor
      · rintro ⟨hq, hqk⟩
        refine ⟨⟨?_, hq⟩, hqk⟩
        rintro rfl
        exact hk (hqk.symm.trans hkey)
      · rintro ⟨⟨-, hq⟩, hqk⟩
        exact ⟨hq, hqk⟩
  · change Function.update m.peersArray (m.peerAt r).id none i = some q ↔ _
    rw [herase]
    by_cases hi : i = (m.peerAt r).id
    · rw [hi, Function.update_self]
      constructor
      · exact nofun
      · rintro ⟨⟨hne, hq⟩, hid⟩
        exact absurd (h.id_injective hq hmem hid) hne
    · rw [Function.update_of_ne hi, h.array]
      constructor
      · rintro ⟨hq, hid⟩
        refine ⟨⟨?_, hq⟩, hid⟩
        rintro rfl
        exact hi hid.symm
      · rintro ⟨⟨-, hq⟩, hid⟩
        exact ⟨hq, hid⟩
  · change ((listed.erase r).map (fun r => (m.peerAt r).id) ++
      (m.peerIds ++ [(m.peerAt r).id])).Perm (List.range m.peerIdCounter)
    have hperm := (List.perm_cons_erase hmem).map (fun r => (m.peerAt r).id)
    rw [List.map_cons] at hperm
    refine List.Perm.trans ?_ ((hperm.append_right m.peerIds).symm.trans h.ids)
    rw [← List.append_assoc]
    exact List.perm_append_comm

end InRegistry

theorem Registered.removePeerInternal {m : NetManager} (h : Registered m) (address : NetAddress) :
    Registered (m.removePeerInternal address) := by
  obtain ⟨listed, h⟩ := h
  cases hr : m.peers address.key with
  | none =>
    rw [NetManager.removePeerInternal, hr]
    exact ⟨listed, h⟩
  | some r => exact ⟨_, h.removePeerInternal hr⟩

/-- A number was taken for a peer to come; nothing else that matters differs. -/
structure Numbered (m : NetManager) (id : ℕ) (m' : NetManager) : Prop extends SameObjects m m' where
  bookkeeping : m'.bookkeeping =
    { m.bookkeeping with peerIds := m'.peerIds, peerIdCounter := m'.peerIdCounter }
  ids : ∀ used : List ℕ, (used ++ m.peerIds).Perm (List.range m.peerIdCounter) →
    (id :: used ++ m'.peerIds).Perm (List.range m'.peerIdCounter)

namespace Numbered

variable {m m' m'' : NetManager} {id : ℕ}

theorem getNextPeerId (m : NetManager) : Numbered m m.getNextPeerId.1 m.getNextPeerId.2 := by
  rw [NetManager.getNextPeerId]
  split
  · next id ids hids =>
    refine ⟨⟨rfl, rfl, rfl, rfl, fun _ => .inl, rfl⟩, rfl, fun used hperm => ?_⟩
    rw [hids] at hperm
    exact List.perm_middle.symm.trans hperm
  · next hids =>
    refine ⟨⟨rfl, rfl, rfl, rfl, fun _ => .inl, rfl⟩, rfl, fun used hperm => ?_⟩
    change (m.peerIdCounter :: used ++ m.peerIds).Perm (List.range (m.peerIdCounter + 1))
    rw [List.range_succ]
    exact (hperm.cons _).trans (List.perm_append_singleton _ _).symm

theorem aside (h : Numbered m id m') (h' : Aside m' m'') : Numbered m id m'' where
  toSameObjects := h.toSameObjects.trans h'.toSameObjects
  bookkeeping := by
    have hids : m''.peerIds = m'.peerIds := congrArg Bookkeeping.peerIds h'.bookkeeping
    have hcounter : m''.peerIdCounter = m'.peerIdCounter :=
      congrArg Bookkeeping.peerIdCounter h'.bookkeeping
    rw [h'.bookkeeping, hids, hcounter]
    exact h.bookkeeping
  ids := by
    have hids : m''.peerIds = m'.peerIds := congrArg Bookkeeping.peerIds h'.bookkeeping
    have hcounter : m''.peerIdCounter = m'.peerIdCounter :=
      congrArg Bookkeeping.peerIdCounter h'.bookkeeping
    rw [hids, hcounter]
    exact h.ids

theorem peers (h : Numbered m id m') : m'.peers = m.peers :=
  congrArg Bookkeeping.peers h.bookkeeping

theorem requests (h : Numbered m id m') : m'.connectionRequests = m.connectionRequests :=
  congrArg Bookkeeping.connectionRequests h.bookkeeping

end Numbered

/-- What adding an object to the registry starts from: it is the newest one, it holds the number
that was taken for it, and its address is free. -/
structure Enters (m : NetManager) (r : PeerRef) (listed : List PeerRef) : Prop where
  linked : DoublyLinked m.nextPeer m.prevPeer m.headPeer listed
  made : ∀ q ∈ listed, q < r
  newest : m.peerCount = r + 1
  unlinked : ∀ q, r ≤ q → m.nextPeer q = none ∧ m.prevPeer q = none
  peers : ∀ k q, m.peers k = some q ↔ q ∈ listed ∧ (m.peerAt q).endpoint.key = k
  array : ∀ i q, m.peersArray i = some q ↔ q ∈ listed ∧ (m.peerAt q).id = i
  ids : ((m.peerAt r).id :: listed.map (fun q => (m.peerAt q).id) ++ m.peerIds).Perm
    (List.range m.peerIdCounter)
  fresh : m.peers (m.peerAt r).endpoint.key = none

theorem Enters.addPeer {m : NetManager} {r : PeerRef} {listed : List PeerRef}
    (h : Enters m r listed) : InRegistry (m.addPeer r) (r :: listed) := by
  have hnot : r ∉ listed := fun hm => lt_irrefl r (h.made r hm)
  have hlinks := h.unlinked r le_rfl
  have hlinked := h.linked.push hnot hlinks.1 hlinks.2
  have hnodup : ((m.peerAt r).id :: listed.map (fun q => (m.peerAt q).id) ++ m.peerIds).Nodup :=
    h.ids.nodup_iff.mpr List.nodup_range
  have hid : ∀ q ∈ listed, (m.peerAt q).id ≠ (m.peerAt r).id := by
    intro q hq he
    refine (List.nodup_cons.mp hnodup).1 (List.mem_append_left _ ?_)
    rw [← he]
    exact List.mem_map_of_mem hq
  rw [NetManager.addPeer_eq]
  refine ⟨hlinked, fun q hq => ?_, fun q hq => ?_, fun k q => ?_, fun i q => ?_, h.ids⟩
  · change q < m.peerCount
    rw [h.newest]
    rcases List.mem_cons.mp hq with rfl | hq
    · exact Nat.lt_succ_self q
    · exact (h.made q hq).trans (Nat.lt_succ_self r)
  · have hlt : r < q := by
      have hq' : m.peerCount ≤ q := hq
      rw [h.newest] at hq'
      exact hq'
    have hq' : q ∉ listed := fun hm => absurd (h.made q hm) (not_lt.mpr hlt.le)
    have hnone := h.unlinked q hlt.le
    exact ⟨(DoublyLinked.pushNext_of_ne hlt.ne').trans hnone.1,
      (h.linked.pushPrev_of_not_mem hq').trans hnone.2⟩
  · dsimp only
    rw [h.fresh, Option.isSome_none, if_neg Bool.false_ne_true, Function.update_apply]
    by_cases hk : k = (m.peerAt r).endpoint.key
    · rw [if_pos hk, Option.some.injEq, List.mem_cons]
      constructor
      · rintro rfl
        exact ⟨.inl rfl, hk.symm⟩
      · rintro ⟨rfl | hq, hqk⟩
        · rfl
        · have hfound := (h.peers k q).mpr ⟨hq, hqk⟩
          rw [hk, h.fresh] at hfound
          cases hfound
    · rw [if_neg hk, h.peers, List.mem_cons]
      constructor
      · rintro ⟨hq, hqk⟩
        exact ⟨.inr hq, hqk⟩
      · rintro ⟨rfl | hq, hqk⟩
        · exact absurd hqk.symm hk
        · exact ⟨hq, hqk⟩
  · dsimp only
    rw [Function.update_apply]
    by_cases hi : i = (m.peerAt r).id
    · rw [if_pos hi, Option.some.injEq, List.mem_cons]
      constructor
      · rintro rfl
        exact ⟨.inl rfl, hi.symm⟩
      · rintro ⟨rfl | hq, hqi⟩
        · rfl
        · exact absurd (hqi.trans hi) (hid q hq)
    · rw [if_neg hi, h.array, List.mem_cons]
      constructor
      · rintro ⟨hq, hqi⟩
        exact ⟨.inr hq, hqi⟩
      · rintro ⟨rfl | hq, hqi⟩
        · exact absurd hqi.symm hi
        · exact ⟨hq, hqi⟩

section Books

variable {answering : RequestRef → Prop} {m : NetManager}

theorem update_none {f : NetAddress.Key → Option RequestRef} {k' : NetAddress.Key}
    (k : NetAddress.Key) (h : f k' = none) : Function.update f k none k' = none := by
  rw [Function.update_apply, h, ite_self]

theorem Books.erase (hb : Books answering m) {k : NetAddress.Key}
    (ha : ∀ q, m.connectionRequests k = some q → answering q) :
    Books answering { m with
      connectionRequests := Function.update m.connectionRequests k none } where
  waiting := by
    intro k' q hq
    change Function.update m.connectionRequests k none k' = some q at hq
    by_cases he : k' = k
    · rw [he, Function.update_self] at hq
      cases hq
    · rw [Function.update_of_ne he] at hq
      exact hb.waiting k' q hq
  pending := by
    intro q hlt hq hu
    have hp := hb.pending q hlt hq hu
    change Function.update m.connectionRequests k none (m.requestAt q).remoteEndpoint.key = some q
    by_cases he : (m.requestAt q).remoteEndpoint.key = k
    · rw [he] at hp
      exact absurd (ha q hp) hq
    · rw [Function.update_of_ne he]
      exact hp
  number := hb.number

/-- A request may become another one of its address and number. -/
theorem Books.setRequest (hb : Books answering m) (q : RequestRef) {request : NetConnectionRequest}
    (endpoint : request.remoteEndpoint = (m.requestAt q).remoteEndpoint)
    (used : request.used = (m.requestAt q).used ∨ answering q)
    (number : (m.requestAt q).internalPacket.connectionNumber.toNat < maxConnectionNumber →
      request.internalPacket.connectionNumber.toNat < maxConnectionNumber) :
    Books answering { m with requestAt := Function.update m.requestAt q request } := by
  have hsame : ∀ q', ((Function.update m.requestAt q request) q').remoteEndpoint =
      (m.requestAt q').remoteEndpoint ∧ (¬ answering q' →
        ((Function.update m.requestAt q request) q').used = (m.requestAt q').used) := by
    intro q'
    by_cases he : q' = q
    · subst he
      rw [Function.update_self]
      exact ⟨endpoint, fun hq => used.resolve_right hq⟩
    · rw [Function.update_of_ne he]
      exact ⟨rfl, fun _ => rfl⟩
  refine ⟨fun k q' hq' => ?_, fun q' hlt hq' hu => ?_, fun q' hlt => ?_⟩
  · obtain ⟨hlt, hkey, hunused⟩ := hb.waiting k q' hq'
    refine ⟨hlt, ?_, fun hq => ?_⟩
    · change ((Function.update m.requestAt q request) q').remoteEndpoint.key = k
      rw [(hsame q').1, hkey]
    · exact ((hsame q').2 hq).trans (hunused hq)
  · change m.connectionRequests ((Function.update m.requestAt q request) q').remoteEndpoint.key =
      some q'
    rw [(hsame q').1]
    exact hb.pending q' hlt hq' (((hsame q').2 hq').symm.trans hu)
  · change ((Function.update m.requestAt q request) q').internalPacket.connectionNumber.toNat < _
    by_cases he : q' = q
    · subst he
      rw [Function.update_self]
      exact number (hb.number q' hlt)
    · rw [Function.update_of_ne he]
      exact hb.number q' hlt

/-- An answered request may not become an open one again. -/
theorem KeepsRequests.setRequest (m : NetManager) (q : RequestRef)
    {request : NetConnectionRequest}
    (endpoint : request.remoteEndpoint = (m.requestAt q).remoteEndpoint)
    (used : (m.requestAt q).used = true → request.used = true) :
    KeepsRequests m { m with requestAt := Function.update m.requestAt q request } where
  count := le_rfl
  endpoint := by
    intro q' _
    change (Function.update m.requestAt q request q').remoteEndpoint = _
    by_cases he : q' = q
    · rw [he, Function.update_self, endpoint]
    · rw [Function.update_of_ne he]
  used := by
    intro q' _ hu
    change (Function.update m.requestAt q request q').used = true
    by_cases he : q' = q
    · rw [he, Function.update_self]
      exact used (he ▸ hu)
    · rw [Function.update_of_ne he, hu]

theorem Books.newRequest (hb : Books answering m) {addr : NetAddress}
    (hfree : m.connectionRequests addr.key = none) {request : NetConnectRequestPacket}
    (number : request.connectionNumber.toNat < maxConnectionNumber) :
    Books answering { m with
      requestCount := m.requestCount + 1
      requestAt := Function.update m.requestAt m.requestCount (.new request addr)
      connectionRequests := Function.update m.connectionRequests addr.key (some m.requestCount) } := by
  have hold : ∀ q < m.requestCount, (Function.update m.requestAt m.requestCount
      (NetConnectionRequest.new request addr)) q = m.requestAt q :=
    fun q hq => Function.update_of_ne hq.ne _ _
  have hnew : (Function.update m.requestAt m.requestCount
      (NetConnectionRequest.new request addr)) m.requestCount = .new request addr :=
    Function.update_self ..
  refine ⟨fun k q hq => ?_, fun q hlt hq hu => ?_, fun q hlt => ?_⟩
  · dsimp only at hq ⊢
    by_cases he : k = addr.key
    · rw [he, Function.update_self] at hq
      cases hq
      rw [hnew, he]
      exact ⟨Nat.lt_succ_self _, rfl, fun _ => rfl⟩
    · rw [Function.update_of_ne he] at hq
      obtain ⟨hlt, hkey, hunused⟩ := hb.waiting k q hq
      rw [hold q hlt]
      exact ⟨Nat.lt_succ_of_lt hlt, hkey, hunused⟩
  · dsimp only at hu ⊢
    rcases Nat.lt_succ_iff_lt_or_eq.mp hlt with hlt | rfl
    · rw [hold q hlt] at hu ⊢
      have hp := hb.pending q hlt hq hu
      have hne : (m.requestAt q).remoteEndpoint.key ≠ addr.key := by
        intro he
        rw [he, hfree] at hp
        cases hp
      rw [Function.update_of_ne hne]
      exact hp
    · rw [hnew]
      exact Function.update_self ..
  · dsimp only
    rcases Nat.lt_succ_iff_lt_or_eq.mp hlt with hlt | rfl
    · rw [hold q hlt]
      exact hb.number q hlt
    · rw [hnew]
      exact number

end Books

end LiteNet.Manager
