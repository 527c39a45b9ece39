import LiteNet.Manager.DeliveryNotices
import LiteNet.Manager.Isolation

/-! # A remote that falls silent

A peer of which nothing arrives any more is given up and then forgotten after a number
of rounds of `update_logic` that its timers tell beforehand, whatever happens between
the manager and its other remotes meanwhile.
-/

namespace LiteNet.Manager
open Library Wire Channels Relation

/-- How many rounds may pass until a peer has ended for longer than the timeout: its attempts to
connect, then the time until it is given up, then the time until it is forgotten. -/
def roundsLeft (c : Settings) (p : NetPeer) : ℕ :=
  let idle := (c.disconnectTimeout + 1 - p.timeSinceLastPacket).toNat
  match p.connectionState with
  | .disconnected => idle
  | .connected => idle + 1
  | .shutdownRequested => idle + 1
  | .outgoing => idle + 1 +
      (c.maxConnectAttempts - p.connectAttempts).toNat * ((c.reconnectDelay + 1).toNat + 1) +
      (c.reconnectDelay + 1 - p.connectTimer).toNat

/-- Past its attempts to connect, a peer has one more round than its time. -/
theorem roundsLeft_le {c : Settings} {p : NetPeer} (h : p.connectionState ≠ .outgoing) :
    roundsLeft c p ≤ (c.disconnectTimeout + 1 - p.timeSinceLastPacket).toNat + 1 := by
  rw [roundsLeft]
  cases hs : p.connectionState with
  | outgoing => exact absurd hs h
  | disconnected => exact Nat.le_succ _
  | connected => exact le_rfl
  | shutdownRequested => exact le_rfl

/-- The timers of a peer stay `int32_t` values for the next `left` milliseconds. -/
structure NetPeer.InTime (p : NetPeer) (left : ℕ) : Prop where
  least : -2147483648 ≤ p.timeSinceLastPacket
  time : p.timeSinceLastPacket + left ≤ 2147483647
  timer : p.connectTimer + left ≤ 2147483647

namespace NetManager

section Update

variable {m : NetManager} {r : PeerRef} {t : ℤ} {e : NetAddress}

/-- The time since the last packet of the peer `r`. -/
structure Timed (r : PeerRef) (t : ℤ) (e : NetAddress) (m : NetManager) : Prop where
  time : (m.peerAt r).timeSinceLastPacket = t
  endpoint : (m.peerAt r).endpoint = e

theorem Timed.of_sameButState {m' : NetManager} (h : Timed r t e m)
    (same : SameButState (m.peerAt r) (m'.peerAt r)) : Timed r t e m' := by
  obtain ⟨state, hpeer⟩ := same
  constructor
  · rw [hpeer]
    exact h.time
  · rw [hpeer]
    exact h.endpoint

theorem Timed.of_peerAt {m' : NetManager} (h : Timed r t e m) (same : m'.peerAt = m.peerAt) :
    Timed r t e m' := ⟨same ▸ h.time, same ▸ h.endpoint⟩

theorem Timed.setPeer (h : Timed r t e m) {p : NetPeer}
    (time : p.timeSinceLastPacket = (m.peerAt r).timeSinceLastPacket)
    (endpoint : p.endpoint = (m.peerAt r).endpoint) : Timed r t e (m.setPeer r p) := by
  constructor
  · rw [setPeer_self, time, h.time]
  · rw [setPeer_self, endpoint, h.endpoint]

theorem Timed.sendRaw (h : Timed r t e m) (bytes : Bytes) (endpoint : NetAddress) :
    Timed r t e (m.sendRaw bytes endpoint).1 :=
  h.of_sameButState (m.sendRaw_frame bytes endpoint r).1

theorem servingKeepsAt_timed (r : PeerRef) (t : ℤ) (e : NetAddress) :
    ServingKeepsAt r e (Timed r t e) where
  endpoint := fun _ h => h.endpoint
  setPeer := fun _ _ h endpoint standing =>
    h.setPeer (congrArg Standing.timeSinceLastPacket standing) (endpoint.trans h.endpoint.symm)
  createEvent := fun _ _ h _ => ⟨h.time, h.endpoint⟩
  poolRecycle := fun m packet h => h.of_peerAt (m.poolRecycle_frame packet).1
  poolGetPacket := fun m size h => h.of_peerAt (m.poolGetPacket_frame size).1
  sendRaw := fun _ bytes h => h.sendRaw bytes e
  getCurrentTime := fun _ h => ⟨h.time, h.endpoint⟩

theorem Timed.updatePing (h : Timed r t e m) (deltaTime : ℤ) :
    Timed r t e (m.updatePing r deltaTime) := by
  have hset : ∀ p : NetPeer, p.timeSinceLastPacket = (m.peerAt r).timeSinceLastPacket →
      p.endpoint = (m.peerAt r).endpoint → Timed r t e (m.setPeer r p) := fun _ => h.setPeer
  rw [NetManager.updatePing]
  dsimp only
  split
  · apply Timed.sendRaw
    have hclock : Timed r t e m.highResolutionNow.2 := ⟨h.time, h.endpoint⟩
    apply hclock.setPeer
    · split <;> rfl
    · split <;> rfl
  · exact hset _ rfl rfl

theorem Timed.updateRtt (h : Timed r t e m) (deltaTime : ℤ) :
    Timed r t e (m.updateRtt r deltaTime) := by
  rw [NetManager.updateRtt]
  dsimp only
  split
  · exact h.setPeer rfl rfl
  · exact h.setPeer rfl rfl

theorem Timed.updateConnected (h : Timed r t e m) (deltaTime : ℤ) :
    Timed r t e (m.updateConnected r deltaTime) := by
  have hserving := servingKeepsAt_timed r t e
  rw [NetManager.updateConnected]
  have hmtu := hserving.updateMtuLogic ((h.updatePing deltaTime).updateRtt deltaTime) deltaTime
  exact hserving.sendMerged (hserving.updateUnreliable (hserving.updateChannels _ hmtu))

/-- An update adds to the time since the last packet, whatever else it does. -/
theorem update_timeSinceLastPacket (m : NetManager) (r : PeerRef) (deltaTime : ℤ) :
    ((m.update r deltaTime).peerAt r).timeSinceLastPacket =
      wrapInt32 ((m.peerAt r).timeSinceLastPacket + deltaTime) := by
  have hset : Timed r (wrapInt32 ((m.peerAt r).timeSinceLastPacket + deltaTime))
      (m.peerAt r).endpoint (m.setPeer r { m.peerAt r with
        timeSinceLastPacket := wrapInt32 ((m.peerAt r).timeSinceLastPacket + deltaTime) }) :=
    ⟨by rw [setPeer_self], by rw [setPeer_self]⟩
  have hforce : ∀ {x : NetManager} (address : NetAddress) (reason : DisconnectReason),
      Timed r (wrapInt32 ((m.peerAt r).timeSinceLastPacket + deltaTime)) (m.peerAt r).endpoint x →
      Timed r (wrapInt32 ((m.peerAt r).timeSinceLastPacket + deltaTime)) (m.peerAt r).endpoint
        (x.disconnectPeerForce address reason 0 none) :=
    fun {x} address reason hx =>
      hx.of_sameButState (x.disconnectPeerForce_frame address reason 0 r).1
  refine Timed.time (e := (m.peerAt r).endpoint) ?_
  rw [NetManager.update]
  dsimp only
  split
  · split
    · exact hforce _ _ hset
    · exact hset.updateConnected deltaTime
  · rw [updateShutdown]
    dsimp only
    split
    · exact hset.setPeer rfl rfl
    · split
      · refine Timed.sendRaw (hset.setPeer ?_ ?_) _ _
        · rfl
        · rfl
      · exact hset.setPeer rfl rfl
  · rw [updateOutgoing]
    dsimp only
    split
    · split
      · refine hforce _ _ (hset.setPeer ?_ ?_)
        · rfl
        · rfl
      · split
        · exact hset.setPeer rfl rfl
        · refine Timed.sendRaw (hset.setPeer ?_ ?_) _ _
          · rfl
          · rfl
    · exact hset.setPeer rfl rfl
  · exact hset

theorem sendRaw_attempts (m : NetManager) (bytes : Bytes) (endpoint : NetAddress) (r : PeerRef) :
    ((m.sendRaw bytes endpoint).1.peerAt r).connectTimer = (m.peerAt r).connectTimer ∧
      ((m.sendRaw bytes endpoint).1.peerAt r).connectAttempts =
        (m.peerAt r).connectAttempts := by
  obtain ⟨state, hpeer⟩ := (m.sendRaw_frame bytes endpoint r).1
  rw [hpeer]
  exact ⟨rfl, rfl⟩

/-- A peer that goes on trying to connect: at most its state, its clock and the timers of its attempts
change. -/
theorem update_outgoing (deltaTime : ℤ)
    (outgoing : (m.peerAt r).connectionState = .outgoing)
    (more : m.reconnectDelay < (m.peerAt r).connectTimer + deltaTime →
      (m.peerAt r).connectAttempts + 1 ≤ m.maxConnectAttempts) :
    if m.reconnectDelay < (m.peerAt r).connectTimer + deltaTime then
      ((m.update r deltaTime).peerAt r).connectTimer = 0 ∧
        ((m.update r deltaTime).peerAt r).connectAttempts = (m.peerAt r).connectAttempts + 1
    else
      ((m.update r deltaTime).peerAt r).connectionState = .outgoing ∧
        ((m.update r deltaTime).peerAt r).connectTimer =
          (m.peerAt r).connectTimer + deltaTime ∧
        ((m.update r deltaTime).peerAt r).connectAttempts = (m.peerAt r).connectAttempts := by
  rw [NetManager.update]
  simp only [outgoing]
  rw [updateOutgoing]
  simp only [setPeer_self]
  by_cases hdelay : m.reconnectDelay < (m.peerAt r).connectTimer + deltaTime
  · have hattempts : ¬ m.maxConnectAttempts < (m.peerAt r).connectAttempts + 1 :=
      not_lt.mpr (more hdelay)
    rw [if_pos hdelay]
    rw [if_pos (show (m.setPeer r _).reconnectDelay < _ from hdelay),
      if_neg (show ¬ ((m.setPeer r _).setPeer r _).maxConnectAttempts < _ from hattempts)]
    split
    · rw [setPeer_self]
      exact ⟨rfl, rfl⟩
    · rw [(sendRaw_attempts _ _ _ r).1, (sendRaw_attempts _ _ _ r).2, setPeer_self]
      exact ⟨rfl, rfl⟩
  · rw [if_neg hdelay]
    rw [if_neg (show ¬ (m.setPeer r _).reconnectDelay < _ from hdelay), setPeer_self]
    exact ⟨rfl, rfl, rfl⟩

/-- A peer past its timeout that waits for a shutdown to be answered has ended. -/
theorem update_shutdown {deltaTime : ℤ}
    (shutdown : (m.peerAt r).connectionState = .shutdownRequested)
    (late : m.disconnectTimeout < wrapInt32 ((m.peerAt r).timeSinceLastPacket + deltaTime)) :
    ((m.update r deltaTime).peerAt r).connectionState = .disconnected := by
  rw [NetManager.update]
  simp only [shutdown]
  rw [updateShutdown]
  simp only [setPeer_self]
  rw [if_pos (show (m.setPeer r _).disconnectTimeout < _ from late), setPeer_self]

/-- An update of a peer that is not yet forgotten uses up one of its rounds. -/
theorem update_roundsLeft (hm : Consistent m) (hl : Live m) (hr : r < m.peerCount) {deltaTime : ℤ}
    (he : 1 ≤ deltaTime) (hstale : ¬ Threads.Stale m r)
    (hwrap : wrapInt32 ((m.peerAt r).timeSinceLastPacket + deltaTime) =
      (m.peerAt r).timeSinceLastPacket + deltaTime) :
    roundsLeft m.settings ((m.update r deltaTime).peerAt r) <
      roundsLeft m.settings (m.peerAt r) := by
  have htime := (update_timeSinceLastPacket m r deltaTime).trans hwrap
  have hchanges : Changes fullScope.inSession m (m.update r deltaTime) :=
    update_changes (fullScope_open.serving _) ⟨hm, hr, rfl⟩ trivial deltaTime
  have hmoves := ((Changes.evolves hchanges).peer r hr).moves
  have hsettings : m.settings.disconnectTimeout = m.disconnectTimeout ∧
      m.settings.reconnectDelay = m.reconnectDelay ∧
      m.settings.maxConnectAttempts = m.maxConnectAttempts := ⟨rfl, rfl, rfl⟩
  have hended : ((m.update r deltaTime).peerAt r).connectionState = .disconnected →
      roundsLeft m.settings ((m.update r deltaTime).peerAt r) =
        (m.settings.disconnectTimeout + 1 - ((m.peerAt r).timeSinceLastPacket + deltaTime)).toNat := by
    intro hs
    rw [roundsLeft, hs, ← htime]
  have hbounded : ((m.update r deltaTime).peerAt r).connectionState ≠ .outgoing →
      roundsLeft m.settings ((m.update r deltaTime).peerAt r) ≤
        (m.settings.disconnectTimeout + 1 -
          ((m.peerAt r).timeSinceLastPacket + deltaTime)).toNat + 1 := by
    intro hs
    rw [← htime]
    exact roundsLeft_le hs
  cases hs : (m.peerAt r).connectionState with
  | disconnected =>
    have hearly : ¬ m.disconnectTimeout < (m.peerAt r).timeSinceLastPacket :=
      fun hlate => hstale ⟨hs, hlate⟩
    have hbefore : roundsLeft m.settings (m.peerAt r) =
        (m.settings.disconnectTimeout + 1 - (m.peerAt r).timeSinceLastPacket).toNat := by
      rw [roundsLeft, hs]
    rw [hended (hmoves.disconnected hs), hbefore]
    omega
  | connected =>
    have hbefore : roundsLeft m.settings (m.peerAt r) =
        (m.settings.disconnectTimeout + 1 - (m.peerAt r).timeSinceLastPacket).toNat + 1 := by
      rw [roundsLeft, hs]
    by_cases hlate : m.disconnectTimeout < (m.peerAt r).timeSinceLastPacket + deltaTime
    · rw [hended (Threads.update_givesUp hl hr (.inl ⟨hs, hwrap.symm ▸ hlate⟩)).1, hbefore]
      omega
    · have hafter := hbounded (hmoves.not_outgoing (by rw [hs]; nofun))
      omega
  | shutdownRequested =>
    have hbefore : roundsLeft m.settings (m.peerAt r) =
        (m.settings.disconnectTimeout + 1 - (m.peerAt r).timeSinceLastPacket).toNat + 1 := by
      rw [roundsLeft, hs]
    by_cases hlate : m.disconnectTimeout < (m.peerAt r).timeSinceLastPacket + deltaTime
    · rw [hended (update_shutdown hs (hwrap.symm ▸ hlate)), hbefore]
      omega
    · have hafter := hbounded (hmoves.not_outgoing (by rw [hs]; nofun))
      omega
  | outgoing =>
    have hbefore : roundsLeft m.settings (m.peerAt r) =
        (m.settings.disconnectTimeout + 1 - (m.peerAt r).timeSinceLastPacket).toNat + 1 +
          (m.settings.maxConnectAttempts - (m.peerAt r).connectAttempts).toNat *
            ((m.settings.reconnectDelay + 1).toNat + 1) +
          (m.settings.reconnectDelay + 1 - (m.peerAt r).connectTimer).toNat := by
      rw [roundsLeft, hs]
    by_cases hdelay : m.reconnectDelay < (m.peerAt r).connectTimer + deltaTime
    · by_cases hlast : m.maxConnectAttempts < (m.peerAt r).connectAttempts + 1
      · rw [hended (Threads.update_givesUp hl hr (.inr ⟨hs, hdelay, hlast⟩)).1, hbefore]
        omega
      · have hupdated := update_outgoing deltaTime hs (fun _ => not_lt.mp hlast)
        rw [if_pos hdelay] at hupdated
        -- one attempt fewer is left, and its timer starts again
        obtain ⟨n, hn⟩ : ∃ n : ℕ,
            (m.settings.maxConnectAttempts - (m.peerAt r).connectAttempts).toNat = n + 1 :=
          ⟨(m.settings.maxConnectAttempts - (m.peerAt r).connectAttempts).toNat - 1, by omega⟩
        have hleft : (m.settings.maxConnectAttempts -
            ((m.peerAt r).connectAttempts + 1)).toNat = n := by omega
        rw [hn, Nat.succ_mul] at hbefore
        by_cases hstill : ((m.update r deltaTime).peerAt r).connectionState = .outgoing
        · rw [roundsLeft, hstill, htime, hupdated.1, hupdated.2, hleft, hbefore]
          simp only [sub_zero]
          omega
        · have hafter := hbounded hstill
          omega
    · have hupdated := update_outgoing deltaTime hs (fun hd => absurd hd hdelay)
      rw [if_neg hdelay] at hupdated
      rw [roundsLeft, hupdated.1, htime, hupdated.2.1, hupdated.2.2, hbefore]
      dsimp only
      omega

end Update

section Round

variable {m : NetManager} {r : PeerRef} {elapsed : ℤ}

/-- Updating the peers before `r` in the list leaves `r` and the rest of the list alone. -/
theorem updatePeers_before {l₁ l₂ : List PeerRef} {fuel : ℕ}
    (hfuel : (l₁ ++ r :: l₂).length ≤ fuel) (hm : Consistent m) (hl : Live m)
    (hnext : ∀ l a l', l₁ ++ r :: l₂ = l ++ a :: l' → m.nextPeer a = l'.head?)
    (hmade : ∀ q ∈ l₁ ++ r :: l₂, q < m.peerCount)
    (hothers : ∀ q ∈ l₁, (m.peerAt q).endpoint.key ≠ (m.peerAt r).endpoint.key) :
    ∃ x fuel' before, l₂.length ≤ fuel' ∧ Consistent x ∧ Live x ∧ x.nextPeer = m.nextPeer ∧
      TouchesOnly {(m.peerAt r).endpoint.key}ᶜ m x ∧
      (∀ addr ∈ before, addr.key ≠ (m.peerAt r).endpoint.key) ∧
      updatePeers elapsed fuel (l₁ ++ r :: l₂).head? m =
        ((updatePeers elapsed (fuel' + 1) (some r) x).1,
          before ++ (updatePeers elapsed (fuel' + 1) (some r) x).2) := by
  induction l₁ generalizing m fuel with
  | nil =>
    rw [List.nil_append, List.length_cons] at hfuel
    obtain ⟨fuel', rfl⟩ : ∃ n, fuel = n + 1 := ⟨fuel - 1, by omega⟩
    exact ⟨m, fuel', [], Nat.le_of_succ_le_succ hfuel, hm, hl, rfl, .refl m, by simp, rfl⟩
  | cons q l₁ ih =>
    rw [List.cons_append, List.length_cons] at hfuel
    obtain ⟨fuel, rfl⟩ : ∃ n, fuel = n + 1 := ⟨fuel - 1, by omega⟩
    rw [Nat.add_le_add_iff_right] at hfuel
    have hq : m.nextPeer q = (l₁ ++ r :: l₂).head? := hnext [] q _ rfl
    have hnext' : ∀ l a l', l₁ ++ r :: l₂ = l ++ a :: l' → m.nextPeer a = l'.head? :=
      fun l a l' hl => hnext (q :: l) a l' (congrArg (q :: ·) hl)
    have hmade' : ∀ a ∈ l₁ ++ r :: l₂, a < m.peerCount := fun a ha =>
      hmade a (List.mem_cons_of_mem q ha)
    have hothers' : ∀ a ∈ l₁, (m.peerAt a).endpoint.key ≠ (m.peerAt r).endpoint.key :=
      fun a ha => hothers a (List.mem_cons_of_mem q ha)
    have hqlt := hmade q List.mem_cons_self
    have hqk := hothers q List.mem_cons_self
    rw [List.cons_append, List.head?_cons, updatePeers]
    dsimp only
    split
    · obtain ⟨x, fuel', before, hlength, hx, hlx, hkept, htouches, hbefore, heq⟩ :=
        ih hfuel hm hl hnext' hmade' hothers'
      refine ⟨x, fuel', (m.peerAt q).endpoint :: before, hlength, hx, hlx, hkept, htouches,
        List.forall_mem_cons.mpr ⟨hqk, hbefore⟩, ?_⟩
      rw [hq, heq, List.cons_append]
    · have hchanges : Changes (Threads.threadScope (· = q)).inSession m (m.update q elapsed) :=
        update_changes ((Threads.threadScope_open (· = q)).serving _) ⟨hm, hqlt, rfl⟩ rfl _
      have hkept : (m.update q elapsed).nextPeer = m.nextPeer :=
        congrArg Bookkeeping.nextPeer ((Changes.evolves hchanges).kept id)
      have hupdate : TouchesOnly {(m.peerAt r).endpoint.key}ᶜ m (m.update q elapsed) :=
        update_touches hm.known hqlt hqk elapsed
      have hr : r < m.peerCount := hmade' r (by simp)
      have hkey : ((m.update q elapsed).peerAt r).endpoint.key = (m.peerAt r).endpoint.key :=
        congrArg NetAddress.key (hupdate.endpoint r hr)
      obtain ⟨x, fuel', before, hlength, hx, hlx, hkept', htouches, hbefore, heq⟩ :=
        ih (m := m.update q elapsed) hfuel (Changes.consistent hchanges hm)
          (Changes.live trivial hchanges hl) (by rw [hkept]; exact hnext')
          (fun a ha => (hmade' a ha).trans_le hupdate.count) (by
            intro a ha
            rw [hkey, hupdate.endpoint a (hmade' a (List.mem_append_left _ ha))]
            exact hothers' a ha)
      rw [hkey] at htouches hbefore
      refine ⟨x, fuel', before, hlength, hx, hlx, hkept'.trans hkept, hupdate.trans htouches,
        hbefore, ?_⟩
      rw [hkept, hq, heq]

/-- Once an address that is removed has no peer, it has none at the end. -/
theorem removePeers_none {addresses : List NetAddress} {addr : NetAddress}
    (h : addr ∈ addresses ∨ m.peers addr.key = none) :
    (addresses.foldl removePeerInternal m).peers addr.key = none := by
  induction addresses generalizing m with
  | nil => exact h.resolve_left List.not_mem_nil
  | cons first addresses ih =>
    apply ih
    have hremoved : ∀ k, k = first.key ∨ m.peers k = none →
        (m.removePeerInternal first).peers k = none := by
      intro k hk
      cases hfound : m.peers first.key with
      | none =>
        rw [removePeerInternal, hfound]
        exact hk.elim (fun he => he ▸ hfound) id
      | some q =>
        rw [m.removePeerInternal_eq hfound]
        by_cases he : k = first.key
        · rw [he]
          exact Function.update_self ..
        · exact (Function.update_of_ne he _ _).trans (hk.resolve_left he)
    rcases h with h | h
    · rcases List.mem_cons.mp h with rfl | h
      · exact .inr (hremoved _ (.inl rfl))
      · exact .inl h
    · exact .inr (hremoved _ (.inr h))

/-- A round forgets a peer that ended long ago, and uses up one round of any other one. -/
theorem updateLogic_own (hm : Consistent m) (hreg : Registered m) (hl : Live m)
    (he : 1 ≤ elapsed) {k : NetAddress.Key} (hr : m.peers k = some r)
    (hwrap : wrapInt32 ((m.peerAt r).timeSinceLastPacket + elapsed) =
      (m.peerAt r).timeSinceLastPacket + elapsed) :
    if Threads.Stale m r then (m.updateLogic elapsed).peers k = none
    else (m.updateLogic elapsed).peers k = some r ∧
      ((m.updateLogic elapsed).peerAt r).timeSinceLastPacket =
        (m.peerAt r).timeSinceLastPacket + elapsed ∧
      roundsLeft m.settings ((m.updateLogic elapsed).peerAt r) <
        roundsLeft m.settings (m.peerAt r) := by
  obtain ⟨listed, hlisted⟩ := hreg
  obtain ⟨hmem, hkey⟩ := (hlisted.peers k r).mp hr
  obtain ⟨l₁, l₂, rfl⟩ := List.append_of_mem hmem
  have hothers : ∀ q ∈ l₁ ++ r :: l₂, q ≠ r →
      (m.peerAt q).endpoint.key ≠ (m.peerAt r).endpoint.key := by
    intro q hq hne hsame
    have hfound := (hlisted.peers _ q).mpr ⟨hq, hsame⟩
    rw [hkey, hr] at hfound
    exact hne (Option.some.inj hfound).symm
  have hnodup := hlisted.linked.nodup
  rw [List.nodup_append, List.nodup_cons] at hnodup
  obtain ⟨-, ⟨hnotin, -⟩, hdisjoint⟩ := hnodup
  have hlength : (l₁ ++ r :: l₂).length ≤ m.peerCount := by
    have hsubset : l₁ ++ r :: l₂ ⊆ List.range m.peerCount := fun q hq =>
      List.mem_range.mpr (hlisted.made q hq)
    simpa using (hlisted.linked.nodup.subperm hsubset).length_le
  obtain ⟨x, fuel', before, hfuel, hx, hlx, hkept, htouches, hbefore, heq⟩ :=
    updatePeers_before hlength hm hl hlisted.linked.next_eq hlisted.made
      (fun q hq => hothers q (List.mem_append_left _ hq)
        (fun hqr => hdisjoint q hq r List.mem_cons_self hqr))
  have hrlt := hlisted.made r hmem
  rw [hkey] at htouches hbefore
  have hsame : x.peerAt r = m.peerAt r :=
    htouches.peerAt r hrlt (fun hin => hin hkey)
  have hfound : x.peers k = some r := by
    rw [htouches.peers k (fun hin => hin rfl), hr]
  have htimeout : x.disconnectTimeout = m.disconnectTimeout :=
    congrArg Settings.disconnectTimeout htouches.settings
  rw [updateLogic, hlisted.linked.head_eq, heq, updatePeers]
  dsimp only
  rw [hsame, htimeout]
  by_cases hstale : Threads.Stale m r
  · rw [if_pos hstale, if_pos (show _ ∧ _ from hstale), ← hkey]
    exact removePeers_none (.inl (by simp))
  · rw [if_neg hstale, if_neg (show ¬ (_ ∧ _) from hstale)]
    have hxlt := hrlt.trans_le htouches.count
    have hchanges : Changes fullScope.inSession x (x.update r elapsed) :=
      update_changes (fullScope_open.serving _) ⟨hx, hxlt, rfl⟩ trivial elapsed
    have hevolves := Changes.evolves hchanges
    have hrounds := update_roundsLeft hx hlx hxlt he (by rwa [Threads.Stale, hsame, htimeout])
      (by rw [hsame, hwrap])
    rw [htouches.settings, hsame] at hrounds
    -- the peers after `r` have other addresses
    have hnext : (x.update r elapsed).nextPeer = m.nextPeer :=
      (congrArg Bookkeeping.nextPeer (hevolves.kept id)).trans hkept
    have hcount : (x.update r elapsed).peerCount = x.peerCount := (hevolves.fixed id).1
    have hafter : ∀ q ∈ l₂, q < (x.update r elapsed).peerCount ∧
        ((x.update r elapsed).peerAt q).endpoint.key ∈ ({k} : Set NetAddress.Key)ᶜ ∧
        ∀ q', (x.update r elapsed).nextPeer q = some q' → q' ∈ l₂ := by
      intro q hq
      have hqmem : q ∈ l₁ ++ r :: l₂ := List.mem_append_right _ (List.mem_cons_of_mem r hq)
      have hqlt := hlisted.made q hqmem
      have hne : q ≠ r := fun he => hnotin (he ▸ hq)
      refine ⟨hcount ▸ hqlt.trans_le htouches.count, ?_, ?_⟩
      · rw [(hevolves.peer q (hqlt.trans_le htouches.count)).endpoint, htouches.endpoint q hqlt]
        exact fun hk => hothers q hqmem hne (Eq.trans hk hkey.symm)
      · intro q' hq'
        obtain ⟨l, l', rfl⟩ := List.append_of_mem hq
        rw [hnext, hlisted.linked.next_eq (l₁ ++ r :: l) q l' (by simp)] at hq'
        exact List.mem_append_right _ (List.mem_cons_of_mem q (List.mem_of_mem_head? hq'))
    have hhead : ∀ q, (x.update r elapsed).nextPeer r = some q → q ∈ l₂ := by
      intro q hq
      rw [hnext, hlisted.linked.next_eq l₁ r l₂ rfl] at hq
      exact List.mem_of_mem_head? hq
    obtain ⟨hrest, haddrs⟩ := updatePeers_touches fuel'
      (Changes.consistent hchanges hx) hafter hhead
    have hremoved : TouchesOnly ({k} : Set NetAddress.Key)ᶜ (x.update r elapsed) _ :=
      hrest.trans (removePeers_touches _ (fun addr haddr =>
        (List.mem_append.mp haddr).elim (hbefore addr) (haddrs addr)))
    have hrkey : ((x.update r elapsed).peerAt r).endpoint.key = k := by
      rw [(hevolves.peer r hxlt).endpoint, hsame, hkey]
    refine ⟨?_, ?_⟩
    · rw [hremoved.peers k (fun hin => hin rfl), (hevolves.fixed id).2, hfound]
    · rw [hremoved.peerAt r (hcount ▸ hxlt) (fun hin => hin hrkey)]
      exact ⟨by rw [update_timeSinceLastPacket, hsame, hwrap], hrounds⟩

end Round

section Told

variable {S : Scope} {m m' : NetManager} {r : PeerRef}

/-- The `DISCONNECT` of the peer `r` was queued. -/
def Told (m : NetManager) (r : PeerRef) : Prop :=
  ∃ e ∈ m.events, e.type = .disconnect ∧ e.peer = some r

theorem Told.of_events (h : Told m r) (events : ∃ es, m'.events = m.events ++ es) :
    Told m' r := by
  obtain ⟨e, he, type, peer⟩ := h
  obtain ⟨es, hes⟩ := events
  exact ⟨e, hes ▸ List.mem_append_left es he, type, peer⟩

/-- A session does not end without a `DISCONNECT`. -/
theorem Change.told (h : Change S m m') (hr : r < m.peerCount)
    (hs : (m.peerAt r).isConnected = true ∨ Told m r) :
    (m'.peerAt r).isConnected = true ∨ Told m' r := by
  have hsame : ∀ {x : NetManager}, x.peerAt r = m.peerAt r → (∃ es, x.events = m.events ++ es) →
      (x.peerAt r).isConnected = true ∨ Told x r := by
    intro x hpeer hevents
    rw [hpeer]
    exact hs.imp_right (fun ht => ht.of_events hevents)
  have hnone : ∀ {es : List NetEvent}, es = m.events → ∃ new, es = m.events ++ new :=
    fun he => ⟨[], by rw [he, List.append_nil]⟩
  have hset : ∀ {r' p}, (r = r' → p.isConnected = (m.peerAt r).isConnected) →
      ((m.setPeer r' p).peerAt r).isConnected = true ∨ Told (m.setPeer r' p) r := by
    intro r' p hp
    by_cases he : r = r'
    · rw [← he, setPeer_self, hp he]
      exact hs
    · exact hsame (m.setPeer_of_ne he p) (hnone rfl)
  cases h with
  | aside h => exact hsame (by rw [h.peerAt]) (hnone h.events)
  | register same => exact hsame (by rw [same.peerAt]) (hnone same.events)
  | touch r' same state number =>
    refine hset (fun he => ?_)
    rw [NetPeer.isConnected, state, he, NetPeer.isConnected]
  | emit d emits => exact hsame rfl (hnone rfl)
  | note e about => exact hsame rfl ⟨[e], rfl⟩
  | report r' e peer type state => exact hsame rfl ⟨[e], rfl⟩
  | close r' p ds notes e closes same number before after emits about type peer result =>
    by_cases he : r = r'
    · refine .inr ⟨e, ?_, type, he ▸ peer⟩
      rw [result.events]
      exact List.mem_append_right _ List.mem_cons_self
    · refine hsame ?_ ⟨notes ++ [e], by rw [result.events, List.append_assoc]⟩
      rw [result.peerAt]
      exact Function.update_of_ne he _ _
  | finish r' closes before =>
    by_cases he : r = r'
    · subst he
      have hnot : (m.peerAt r).isConnected = false := by
        rw [NetPeer.isConnected, before]
        rfl
      exact .inr ((hs.resolve_left (by rw [hnot]; exact Bool.false_ne_true)).of_events (hnone rfl))
    · exact hsame (m.setPeer_of_ne he _) (hnone rfl)
  | establish r' p e same accepts before after type peer =>
    by_cases he : r = r'
    · refine .inl ?_
      change ((m.setPeer r' p).peerAt r).isConnected = true
      rw [he, setPeer_self, NetPeer.isConnected, after]
      rfl
    · exact hsame (m.setPeer_of_ne he p) ⟨[e], rfl⟩
  | create p ds notes es registers opens wellFormed emits about announce result peers own others
      keeps =>
    refine hsame ?_ ⟨notes ++ es, by rw [result.events, List.append_assoc]⟩
    rw [result.peerAt]
    exact Function.update_of_ne hr.ne _ _

theorem Changes.told (h : Changes S m m') (hr : r < m.peerCount)
    (hs : (m.peerAt r).isConnected = true ∨ Told m r) :
    (m'.peerAt r).isConnected = true ∨ Told m' r := by
  induction h with
  | refl => exact hs
  | tail hc hstep ih => exact Change.told hstep (hr.trans_le (Changes.evolves hc).count) ih

end Told

section Runs

variable {m : NetManager} {r : PeerRef} {k : NetAddress.Key}

/-- Nothing arrives from the address `k`, and the application does no more about it than send. -/
def Action.Silent (k : NetAddress.Key) (m : NetManager) (a : Action) : Prop :=
  a.Enabled m ∧ (k ∈ a.concerns m → (∃ elapsed, a = .updateLogic elapsed) ∨
    ∃ r data offset size channelNumber deliveryMethod userData,
      a = .send r data offset size channelNumber deliveryMethod userData)

def Action.isRound : Action → Bool
  | .updateLogic _ => true
  | _ => false

/-- How long an action lets the peers wait. -/
def Action.milliseconds : Action → ℕ
  | .updateLogic elapsed => elapsed.toNat
  | _ => 0

/-- The peer `r` is still registered under `k`; a session that it had goes on, or its end was told.
What is `left` of the run cannot make the time since its last packet wrap. -/
structure Remembered (k : NetAddress.Key) (r : PeerRef) (live : Bool) (left : ℕ) (m : NetManager) :
    Prop where
  reachable : Reachable Fresh Step m
  found : m.peers k = some r
  told : live = true → (m.peerAt r).isConnected = true ∨ Told m r
  least : -2147483648 ≤ (m.peerAt r).timeSinceLastPacket
  most : (m.peerAt r).timeSinceLastPacket + left ≤ 2147483647

/-- The address `k` has no peer, and the end of the session that `r` had was told. -/
structure Forgotten (k : NetAddress.Key) (r : PeerRef) (live : Bool) (m : NetManager) : Prop where
  reachable : Reachable Fresh Step m
  gone : m.peers k = none
  told : live = true → Told m r

theorem send_roundsLeft (hm : Consistent m) (hl : Live m) (hr : m.peers k = some r)
    {r' : PeerRef} (hr' : r' < m.peerCount) (hk : (m.peerAt r').endpoint.key = k) (data : Bytes)
    (offset size : ℕ) (channelNumber : UInt8) (deliveryMethod : DeliveryMethod) (userData : ℕ) :
    (m.sendInternal r' data offset size channelNumber deliveryMethod userData).peers = m.peers ∧
      ((m.sendInternal r' data offset size channelNumber deliveryMethod userData).peerAt
        r).timeSinceLastPacket = (m.peerAt r).timeSinceLastPacket ∧
      roundsLeft m.settings
        ((m.sendInternal r' data offset size channelNumber deliveryMethod userData).peerAt r) ≤
          roundsLeft m.settings (m.peerAt r) := by
  by_cases hs : (m.peerAt r').connectionState = .connected
  · have hsame : r' = r := by
      have hfound := hl r' hr' ((NetPeer.isConnected_iff _).mpr (.inr hs))
      rw [hk, hr] at hfound
      exact (Option.some.inj hfound).symm
    subst hsame
    have hchanges : Changes .quiet m
        (m.sendInternal r' data offset size channelNumber deliveryMethod userData) :=
      sendInternal_changes hm hr' ..
    have htimed : Timed r' (m.peerAt r').timeSinceLastPacket (m.peerAt r').endpoint
        (m.sendInternal r' data offset size channelNumber deliveryMethod userData) :=
      (servingKeepsAt_timed r' _ _).sendInternal ⟨rfl, rfl⟩ ..
    have hstate := (hchanges.quiet_state hr').trans hs
    refine ⟨(hchanges.evolves.fixed id).2, htimed.time, ?_⟩
    rw [roundsLeft, roundsLeft, hstate, hs, htimed.time]
  · rw [sendInternal, if_pos (.inl hs)]
    exact ⟨rfl, rfl, le_rfl⟩

/-- The remote stays silent during an action: a round uses up one of the rounds that are left, or the
peer is forgotten. -/
theorem act_silent {live : Bool} {left : ℕ} {a : Action}
    (h : Remembered k r live (a.milliseconds + left) m) (ha : a.Silent k m) :
    Forgotten k r live (m.act a) ∨ Remembered k r live left (m.act a) ∧
      roundsLeft (m.act a).settings ((m.act a).peerAt r) + a.isRound.toNat ≤
        roundsLeft m.settings (m.peerAt r) := by
  obtain ⟨hm, hreg, hl⟩ := Threads.live_of_reachable h.reachable
  have hreachable : Reachable Fresh Step (m.act a) := h.reachable.tail ⟨a, ha.1, rfl⟩
  obtain ⟨hr, hkey⟩ := hm.registered k r h.found
  have hchanges := Step.changes ⟨a, ha.1, rfl⟩ hm
  have htold : live = true → ((m.act a).peerAt r).isConnected = true ∨ Told (m.act a) r :=
    fun hlive => Changes.told hchanges hr (h.told hlive)
  have hlater : (m.peerAt r).timeSinceLastPacket + left ≤ 2147483647 := by
    have hmost := h.most
    omega
  have htouches := act_touches hm hreg ha.1
  rw [htouches.settings]
  by_cases hk : k ∈ a.concerns m
  · rcases ha.2 hk with ⟨elapsed, rfl⟩ |
      ⟨r', data, offset, size, channelNumber, method, userData, rfl⟩
    · have he : 1 ≤ elapsed := ha.1
      have hmost := h.most
      have hleast := h.least
      have hspent : ((Action.updateLogic elapsed).milliseconds : ℤ) = elapsed :=
        Int.toNat_of_nonneg (zero_le_one.trans he)
      rw [Nat.cast_add, hspent] at hmost
      have hround := updateLogic_own hm hreg hl he h.found
        (wrapInt32_of_range (by omega) (by omega))
      split at hround
      · next hstale =>
        refine .inl ⟨hreachable, hround, fun hlive => ?_⟩
        have hended : (m.peerAt r).isConnected = false := hstale.isConnected
        exact ((h.told hlive).resolve_left (by rw [hended]; exact Bool.false_ne_true)).of_events
          (htouches.events.imp fun _ he => he.1)
      · obtain ⟨hfound, htime, hrounds⟩ := hround
        exact .inr ⟨⟨hreachable, hfound, htold, by rw [act, htime]; omega,
          by rw [act, htime]; omega⟩, hrounds⟩
    · have hsend := send_roundsLeft hm hl h.found ha.1 (Eq.symm hk) data offset size channelNumber
        method userData
      exact .inr ⟨⟨hreachable, by rw [act, hsend.1, h.found], htold,
        by rw [act, hsend.2.1]; exact h.least, by rw [act, hsend.2.1]; exact hlater⟩, hsend.2.2⟩
  · have hround : a.isRound = false := by
      cases a with
      | updateLogic elapsed =>
        exact absurd (show (m.peers k).isSome = true by rw [h.found]; rfl) hk
      | _ => rfl
    have hsame := htouches.peerAt r hr (by rwa [hkey])
    rw [hround, hsame]
    exact .inr ⟨⟨hreachable, by rw [htouches.peers k hk, h.found], htold,
      by rw [hsame]; exact h.least, by rw [hsame]; exact hlater⟩, le_rfl⟩

theorem act_forgotten {live : Bool} {a : Action} (h : Forgotten k r live m) (ha : a.Silent k m) :
    Forgotten k r live (m.act a) := by
  obtain ⟨hm, hreg, hl⟩ := Threads.live_of_reachable h.reachable
  have htouches := act_touches hm hreg ha.1
  refine ⟨h.reachable.tail ⟨a, ha.1, rfl⟩, ?_, fun hlive =>
    (h.told hlive).of_events (htouches.events.imp fun _ he => he.1)⟩
  by_cases hk : k ∈ a.concerns m
  · rcases ha.2 hk with ⟨elapsed, rfl⟩ |
      ⟨r', data, offset, size, channelNumber, method, userData, rfl⟩
    · exact absurd (show (m.peers k).isSome = true from hk) (by rw [h.gone]; exact Bool.false_ne_true)
    · -- an object of the address is no longer registered, so it takes part in no session
      have hs : (m.peerAt r').connectionState ≠ .connected := by
        intro hs
        have hfound := hl r' ha.1 ((NetPeer.isConnected_iff _).mpr (.inr hs))
        rw [show (m.peerAt r').endpoint.key = k from Eq.symm hk, h.gone] at hfound
        cases hfound
      change (m.sendInternal r' data offset size channelNumber method userData).peers k = none
      rw [sendInternal, if_pos (.inl hs), h.gone]
  · rw [htouches.peers k hk, h.gone]

/-- When nothing more arrives from a remote, its peer is given up and forgotten, and the end of its
session is told, after as many rounds as its timers say, whatever happens with other remotes. -/
theorem forgotten_of_run (h : Reachable Fresh Step m) (hr : m.peers k = some r)
    {actions : List Action} (time : (m.peerAt r).InTime (actions.map Action.milliseconds).sum)
    (silent : ∀ before a, before ++ [a] <+: actions → a.Silent k (m.runActions before))
    (enough : roundsLeft m.settings (m.peerAt r) < actions.countP Action.isRound) :
    (m.runActions actions).peers k = none ∧
      ((m.peerAt r).isConnected = true → Told (m.runActions actions) r) := by
  have hremembered : Remembered k r (m.peerAt r).isConnected _ m :=
    ⟨h, hr, .inl, time.least, time.time⟩
  have hforgotten := spent_of_run (P := Remembered k r (m.peerAt r).isConnected)
    (Q := Forgotten k r (m.peerAt r).isConnected)
    (fun m => roundsLeft m.settings (m.peerAt r)) Action.isRound Action.milliseconds
    (fun _ _ _ hm ha => act_silent hm ha) (fun _ _ hm ha => act_forgotten hm ha) silent
    (.inr ⟨hremembered, enough⟩)
  exact ⟨hforgotten.gone, hforgotten.told⟩

/-- The server of a connected client is gone for good; the default timeout is five seconds. -/
theorem forgotten_of_run_connectedClient :
    (connectedClient.runActions (List.replicate 5003 (.updateLogic 1))).peers
        (⟨2, 1, 2, 0⟩ : NetAddress).key = none ∧
      ((connectedClient.peerAt 0).isConnected = true →
        Told (connectedClient.runActions (List.replicate 5003 (.updateLogic 1))) 0) := by
  generalize hactions : List.replicate 5003 (Action.updateLogic 1) = actions
  have hreachable : Reachable Fresh Step connectedClient :=
    ((Reachable.initial (fresh_new _ _ _)).tail ⟨.connect _ _ _, trivial, rfl⟩).tail
      ⟨.receive _ _, show _ ≤ maxPacketSize by decide +kernel, rfl⟩
  have hfound : connectedClient.peers (⟨2, 1, 2, 0⟩ : NetAddress).key = some 0 := by
    decide +kernel
  refine forgotten_of_run hreachable hfound ?_ ?_ ?_
  · have hspent : (actions.map Action.milliseconds).sum = 5003 := by
      rw [← hactions, List.map_replicate, List.sum_replicate]
      rfl
    rw [hspent]
    exact ⟨by decide +kernel, by decide +kernel, by decide +kernel⟩
  · intro before a hb
    rw [← hactions] at hb
    have ha : a = .updateLogic 1 :=
      List.eq_of_mem_replicate (hb.subset (List.mem_append_right _ List.mem_cons_self))
    subst ha
    exact ⟨le_rfl, fun _ => .inl ⟨1, rfl⟩⟩
  · have hleft : roundsLeft connectedClient.settings (connectedClient.peerAt 0) = 5002 := by
      decide +kernel
    have hround : (Action.updateLogic 1).isRound = true := rfl
    rw [hleft, ← hactions, List.countP_replicate, if_pos hround]
    exact Nat.lt_succ_self 5002

end Runs

end NetManager

end LiteNet.Manager
