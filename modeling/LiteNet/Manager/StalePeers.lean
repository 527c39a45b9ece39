import LiteNet.Manager.PeerRegistry

/-! # The update thread between the other threads

`update_logic` tests a peer, updates it and takes the next one in separate steps, and at
the end of a round removes the addresses it collected. Between two of its steps packets
are received and the application calls, so an address may have a new peer by then.
-/

namespace LiteNet.Manager
open Library Wire Relation

/-- Where the loop of `update_logic` stands. -/
inductive Phase where
  | idle
  | check (peer : Option PeerRef)
  | update (r : PeerRef)
  | next (r : PeerRef)
  deriving DecidableEq

/-- A manager with the locals of its update thread. The code keeps the addresses to remove; here
each comes with the peer it was taken from. -/
structure Threads where
  manager : NetManager
  phase : Phase
  elapsed : ℤ
  peersToRemove : List (PeerRef × NetAddress)

/-- What another thread does, the begin of a round, and the next step of the round. -/
inductive ThreadAction where
  | other (a : NetManager.Action)
  | wake (elapsed : ℤ)
  | advance

namespace Threads

/-- The condition under which `update_logic` collects the address of a peer. -/
def Stale (m : NetManager) (r : PeerRef) : Prop :=
  (m.peerAt r).connectionState = .disconnected ∧
    m.disconnectTimeout < (m.peerAt r).timeSinceLastPacket

instance (m : NetManager) (r : PeerRef) : Decidable (Stale m r) :=
  inferInstanceAs (Decidable (_ ∧ _))

/-- The removal under `m_peers_mutex` at the end of a round. -/
def purge (t : Threads) : Threads where
  manager := (t.peersToRemove.map Prod.snd).foldl NetManager.removePeerInternal t.manager
  phase := .idle
  elapsed := t.elapsed
  peersToRemove := []

def advance (t : Threads) : Threads :=
  match t.phase with
  | .idle => t
  | .check none => t.purge
  | .check (some r) =>
    if Stale t.manager r then
      { t with
        phase := .next r
        peersToRemove := t.peersToRemove ++ [(r, (t.manager.peerAt r).endpoint)] }
    else { t with phase := .update r }
  | .update r => { t with manager := t.manager.update r t.elapsed, phase := .next r }
  | .next r => { t with phase := .check (t.manager.nextPeer r) }

def act (t : Threads) : ThreadAction → Threads
  | .other a => { t with manager := t.manager.act a }
  | .wake elapsed => { t with phase := .check t.manager.headPeer, elapsed := elapsed }
  | .advance => t.advance

/-- Only the update thread runs `update_logic`, one round after the other. -/
def Enabled (t : Threads) : ThreadAction → Prop
  | .other a => a.Enabled t.manager ∧ ∀ elapsed, a ≠ .updateLogic elapsed
  | .wake elapsed => t.phase = .idle ∧ 1 ≤ elapsed
  | .advance => t.phase ≠ .idle

structure Start (t : Threads) : Prop where
  manager : t.manager.Initial
  phase : t.phase = .idle
  peersToRemove : t.peersToRemove = []

def Step (t t' : Threads) : Prop := ∃ a, t.Enabled a ∧ t.act a = t'

/-- The update of `r` finds that nothing was heard for too long, or that the last attempt to
connect is over. -/
def GivesUp (m : NetManager) (r : PeerRef) (deltaTime : ℤ) : Prop :=
  (m.peerAt r).connectionState = .connected ∧
      m.disconnectTimeout < wrapInt32 ((m.peerAt r).timeSinceLastPacket + deltaTime) ∨
    (m.peerAt r).connectionState = .outgoing ∧
      m.reconnectDelay < (m.peerAt r).connectTimer + deltaTime ∧
      m.maxConnectAttempts < (m.peerAt r).connectAttempts + 1

/-- The next step of the update thread removes stale peers only, and disconnects no other peer than
the one it gives up. -/
structure Harmless (t : Threads) : Prop where
  removes : ∀ k r, t.manager.peers k = some r → t.advance.manager.peers k ≠ some r →
    Stale t.manager r
  disconnects : ∀ r, t.phase = .update r → GivesUp t.manager r t.elapsed →
    (t.advance.manager.peerAt r).connectionState = .disconnected ∧
      ∀ r' ≠ r, t.advance.manager.peerAt r' = t.manager.peerAt r'

/-- When the round ends, an address that was collected is registered to nobody, or still to the peer
it was taken from. -/
def Undisturbed (t : Threads) : Prop :=
  t.phase = .check none → ∀ c ∈ t.peersToRemove,
    t.manager.peers c.2.key = none ∨ t.manager.peers c.2.key = some c.1

instance (t : Threads) : Decidable t.Undisturbed :=
  inferInstanceAs (Decidable (_ → ∀ c ∈ t.peersToRemove, _))

/-- A step in which no round ends disturbed. -/
def UndisturbedStep (t t' : Threads) : Prop :=
  ∃ a, t.Enabled a ∧ (a = .advance → t.Undisturbed) ∧ t.act a = t'

/-- A scope in which peers leave the registry only after they have ended, and time passes for some
peers only. -/
def threadScope (elapses : PeerRef → Prop) : Scope :=
  { NetManager.fullScope with
    orderly := True
    elapses := elapses }

theorem threadScope_open (elapses : PeerRef → Prop) : (threadScope elapses).Open where
  closes := trivial
  registers := trivial
  opens := fun _ _ => trivial
  plain := fun _ _ _ => trivial
  accept := fun _ _ _ _ _ => trivial

/-- A peer that the loop holds on to was made. -/
def Made (m : NetManager) : Phase → Prop
  | .idle => True
  | .check peer => ∀ r, peer = some r → r < m.peerCount
  | .update r => r < m.peerCount
  | .next r => r < m.peerCount

/-- What holds between any two steps: what was collected stays stale and is not updated again. -/
structure Invariant (t : Threads) : Prop where
  consistent : Consistent t.manager
  live : Live t.manager
  phase : Made t.manager t.phase
  apart : ∀ r, t.phase = .update r → ∀ c ∈ t.peersToRemove, c.1 ≠ r
  collected : ∀ c ∈ t.peersToRemove, c.1 < t.manager.peerCount ∧
    (t.manager.peerAt c.1).endpoint = c.2 ∧ Stale t.manager c.1

variable {t : Threads}

theorem Made.mono {m m' : NetManager} {phase : Phase} (h : Made m phase)
    (count : m.peerCount ≤ m'.peerCount) : Made m' phase := by
  cases phase with
  | idle => trivial
  | check peer => exact fun r hr => (h r hr).trans_le count
  | update r => exact h.trans_le count
  | next r => exact h.trans_le count

/-- What was collected is not revived while no time passes for it. -/
theorem Invariant.changes (h : Invariant t) {m : NetManager} {elapses : PeerRef → Prop}
    (hc : Changes (threadScope elapses) t.manager m)
    (apart : ∀ c ∈ t.peersToRemove, ¬ elapses c.1) : Invariant { t with manager := m } where
  consistent := Changes.consistent hc h.consistent
  live := Changes.live trivial hc h.live
  phase := h.phase.mono (Changes.evolves hc).count
  apart := h.apart
  collected := by
    intro c hmem
    obtain ⟨hlt, hendpoint, hstate, htime⟩ := h.collected c hmem
    have hevolves := Changes.evolves hc
    have hpeer := hevolves.peer c.1 hlt
    refine ⟨hlt.trans_le hevolves.count, hpeer.endpoint.trans hendpoint,
      hpeer.moves.disconnected hstate, ?_⟩
    change m.disconnectTimeout < (m.peerAt c.1).timeSinceLastPacket
    rw [hevolves.disconnectTimeout, hevolves.idle c.1 hlt hstate (apart c hmem)]
    exact htime

theorem Start.invariant (h : Start t) : Invariant t where
  consistent := h.manager.consistent
  live := by
    intro r hr
    rw [h.manager.peerCount] at hr
    exact absurd hr (Nat.not_lt_zero r)
  phase := by
    rw [h.phase]
    trivial
  apart := fun r hp => by rw [h.phase] at hp; cases hp
  collected := by simp [h.peersToRemove]

/-- Removing the peers of some addresses, all of which have ended. -/
theorem removePeers_changes {m : NetManager} (addresses : List NetAddress)
    (ended : ∀ addr ∈ addresses, ∀ r, m.peers addr.key = some r →
      (m.peerAt r).isConnected = false) :
    Changes (threadScope fun _ => False) m (addresses.foldl NetManager.removePeerInternal m) := by
  induction addresses generalizing m with
  | nil => exact .refl
  | cons addr addresses ih =>
    refine ReflTransGen.trans (NetManager.removePeerInternal_changes trivial m addr
      (fun _ => ended addr List.mem_cons_self)) (ih ?_)
    intro addr' hmem r hr
    cases hfound : m.peers addr.key with
    | none =>
      rw [NetManager.removePeerInternal, hfound] at hr ⊢
      exact ended addr' (List.mem_cons_of_mem _ hmem) r hr
    | some q =>
      rw [m.removePeerInternal_eq hfound] at hr ⊢
      dsimp only at hr
      by_cases hk : addr'.key = addr.key
      · rw [hk, Function.update_self] at hr
        cases hr
      · rw [Function.update_of_ne hk] at hr
        exact ended addr' (List.mem_cons_of_mem _ hmem) r hr

/-- Only the addresses themselves lose their peers. -/
theorem removePeers_peers {m : NetManager} (addresses : List NetAddress) {k : NetAddress.Key}
    (other : ∀ addr ∈ addresses, addr.key ≠ k) :
    (addresses.foldl NetManager.removePeerInternal m).peers k = m.peers k := by
  induction addresses generalizing m with
  | nil => rfl
  | cons addr addresses ih =>
    refine (ih (fun addr' hmem => other addr' (List.mem_cons_of_mem _ hmem))).trans ?_
    cases hfound : m.peers addr.key with
    | none => rw [NetManager.removePeerInternal, hfound]
    | some q =>
      rw [m.removePeerInternal_eq hfound]
      exact Function.update_of_ne (other addr List.mem_cons_self).symm _ _

/-- Who is registered under a collected address is the stale peer itself. -/
theorem Invariant.stale (h : Invariant t) (hu : t.Undisturbed) (hp : t.phase = .check none)
    {c : PeerRef × NetAddress} (hc : c ∈ t.peersToRemove) {r : PeerRef}
    (hr : t.manager.peers c.2.key = some r) : Stale t.manager r := by
  rcases hu hp c hc with hnone | hsome
  · cases hr.symm.trans hnone
  · cases hr.symm.trans hsome
    exact (h.collected c hc).2.2

theorem Stale.isConnected {m : NetManager} {r : PeerRef} (h : Stale m r) :
    (m.peerAt r).isConnected = false := by
  rw [NetPeer.isConnected, h.1]
  rfl

theorem Invariant.purge_changes (h : Invariant t) (hu : t.Undisturbed)
    (hp : t.phase = .check none) :
    Changes (threadScope fun _ => False) t.manager t.purge.manager := by
  apply removePeers_changes
  intro addr hmem r hr
  obtain ⟨c, hc, rfl⟩ := List.mem_map.mp hmem
  exact (h.stale hu hp hc hr).isConnected

/-- A peer that is given up is found under its address, so that it alone is disconnected. -/
theorem update_givesUp {m : NetManager} {r : PeerRef} {deltaTime : ℤ} (hlive : Live m)
    (hr : r < m.peerCount) (h : GivesUp m r deltaTime) :
    ((m.update r deltaTime).peerAt r).connectionState = .disconnected ∧
      ∀ r' ≠ r, (m.update r deltaTime).peerAt r' = m.peerAt r' := by
  have hforce : ∀ (p : NetPeer) (reason : DisconnectReason),
      p.endpoint = (m.peerAt r).endpoint → p.connectionState = (m.peerAt r).connectionState →
      (m.peerAt r).isConnected = true →
      m.update r deltaTime = (m.setPeer r p).disconnectPeerForce p.endpoint reason 0 none →
      ((m.update r deltaTime).peerAt r).connectionState = .disconnected ∧
        ∀ r' ≠ r, (m.update r deltaTime).peerAt r' = m.peerAt r' := by
    intro p reason hendpoint hstate hc hupdate
    have hself : (m.setPeer r p).peerAt r = p := NetManager.setPeer_self ..
    have hconnected : p.isConnected = true := by
      rw [NetPeer.isConnected, hstate]
      exact hc
    have honly := NetManager.disconnectPeerForce_only (m := m.setPeer r p) (r := r) reason
      (by rw [hself, hendpoint]; exact hlive r hr hc) (by rw [hself]; exact hconnected)
    rw [hself, ← hupdate] at honly
    refine ⟨honly.1, fun r' hne => (honly.2 r' hne).trans ?_⟩
    exact NetManager.setPeer_of_ne _ hne _
  rcases h with ⟨hs, htime⟩ | ⟨hs, hdelay, hattempts⟩
  · have hc := (NetPeer.isConnected_iff _).mpr (.inr hs)
    refine hforce { m.peerAt r with
      timeSinceLastPacket := wrapInt32 ((m.peerAt r).timeSinceLastPacket + deltaTime) } .timeout
        rfl rfl hc ?_
    rw [NetManager.update]
    simp only [hs]
    rw [if_pos (show (m.setPeer r _).disconnectTimeout < _ from htime)]
  · have hc := (NetPeer.isConnected_iff _).mpr (.inl hs)
    refine hforce { m.peerAt r with
      timeSinceLastPacket := wrapInt32 ((m.peerAt r).timeSinceLastPacket + deltaTime)
      connectTimer := 0
      connectAttempts := (m.peerAt r).connectAttempts + 1 } .connectionFailed rfl rfl hc ?_
    rw [NetManager.update]
    simp only [hs]
    rw [NetManager.updateOutgoing]
    simp only [NetManager.setPeer_self]
    rw [if_pos (show (m.setPeer r _).reconnectDelay < _ from hdelay), if_pos ?_]
    · rw [NetManager.setPeer, NetManager.setPeer, NetManager.setPeer, Function.update_idem]
    · exact hattempts

theorem Invariant.update_changes (h : Invariant t) {r : PeerRef} (hp : t.phase = .update r) :
    Changes (threadScope (· = r)).inSession t.manager (t.manager.update r t.elapsed) := by
  have hr : Made t.manager (.update r) := hp ▸ h.phase
  exact NetManager.update_changes ((threadScope_open (· = r)).serving _)
    ⟨h.consistent, hr, rfl⟩ rfl _

/-- The steps of the update thread, the end of a round among them when it is undisturbed. -/
theorem Invariant.advance (h : Invariant t) (hu : t.Undisturbed) : Invariant t.advance := by
  have hphase := h.phase
  rw [Threads.advance]
  cases hp : t.phase with
  | idle => exact h
  | check peer =>
    rw [hp] at hphase
    cases peer with
    | none =>
      have hpurge := h.changes (h.purge_changes hu hp) (fun _ _ => id)
      exact ⟨hpurge.consistent, hpurge.live, trivial, fun r hidle => (by cases hidle),
        fun c hc => absurd hc List.not_mem_nil⟩
    | some r =>
      have hr := hphase r rfl
      dsimp only
      split
      · next hstale =>
        refine ⟨h.consistent, h.live, hr, fun q hq => (by cases hq), fun c hc => ?_⟩
        rcases List.mem_append.mp hc with hc | hc
        · exact h.collected c hc
        · cases List.mem_singleton.mp hc
          exact ⟨hr, rfl, hstale⟩
      · next hfresh =>
        -- what was collected is stale, and this peer is not
        refine ⟨h.consistent, h.live, hr, fun q hq c hc he => ?_, h.collected⟩
        cases hq
        exact hfresh (he ▸ (h.collected c hc).2.2)
  | update r =>
    rw [hp] at hphase
    have hchanges := Changes.of_inSession (h.update_changes hp)
    have hupdate := h.changes hchanges (h.apart r hp)
    exact ⟨hupdate.consistent, hupdate.live, hphase.mono (Changes.evolves hchanges).count,
      fun q hq => (by cases hq), hupdate.collected⟩
  | next r =>
    rw [hp] at hphase
    exact ⟨h.consistent, h.live, fun q hq => h.consistent.listed.next r q hq,
      fun q hq => (by cases hq), h.collected⟩

theorem Invariant.act (h : Invariant t) {a : ThreadAction} (ha : t.Enabled a)
    (hu : a = .advance → t.Undisturbed) : Invariant (t.act a) := by
  cases a with
  | other a =>
    have hchanges : Changes (threadScope fun _ => False) t.manager (t.manager.act a) := by
      apply NetManager.act_changes (threadScope_open _) h.consistent ha.1
      refine ⟨fun _ _ _ => ⟨?_, ?_⟩, fun elapsed he => absurd he (ha.2 elapsed), ?_, ?_⟩
      · exact fun _ _ _ => trivial
      · exact fun _ _ _ _ _ => trivial
      · exact fun _ _ _ _ _ _ _ => trivial
      · exact fun _ _ => ⟨trivial, fun _ _ => trivial, trivial⟩
    exact h.changes hchanges (fun _ _ => id)
  | wake elapsed =>
    exact ⟨h.consistent, h.live, h.consistent.listed.head, fun q hq => (by cases hq), h.collected⟩
  | advance => exact h.advance (hu rfl)

theorem invariant_of_reachable (h : Reachable Start UndisturbedStep t) : Invariant t := by
  apply h.invariant (P := Invariant)
  · exact fun t hs => hs.invariant
  · rintro t t' hi ⟨a, ha, hu, rfl⟩
    exact hi.act ha hu

/-- In every run whose rounds end undisturbed, the next step of the update thread is harmless. -/
theorem harmless_of_run (h : Reachable Start UndisturbedStep t) (hu : t.Undisturbed) :
    t.Harmless := by
  have hi := invariant_of_reachable h
  constructor
  · intro k r hr hgone
    rw [Threads.advance] at hgone
    cases hp : t.phase with
    | idle =>
      rw [hp] at hgone
      exact absurd hr hgone
    | check peer =>
      cases peer with
      | some q =>
        rw [hp] at hgone
        dsimp only at hgone
        split at hgone
        · exact absurd hr hgone
        · exact absurd hr hgone
      | none =>
        rw [hp] at hgone
        -- a peer that is gone was registered under an address that was collected
        by_cases hk : ∃ c ∈ t.peersToRemove, c.2.key = k
        · obtain ⟨c, hc, rfl⟩ := hk
          exact hi.stale hu hp hc hr
        · refine absurd ?_ hgone
          refine (removePeers_peers _ fun addr hmem hkey => hk ?_).trans hr
          obtain ⟨c, hc, rfl⟩ := List.mem_map.mp hmem
          exact ⟨c, hc, hkey⟩
    | update q =>
      rw [hp] at hgone
      have hpeers := ((Changes.evolves (hi.update_changes hp)).fixed id).2
      exact absurd ((congrFun hpeers k).trans hr) hgone
    | next q =>
      rw [hp] at hgone
      exact absurd hr hgone
  · intro r hp hgives
    rw [Threads.advance, hp]
    have hr : Made t.manager (.update r) := hp ▸ hi.phase
    exact update_givesUp hi.live hr hgives

theorem advance_step (hp : t.phase ≠ .idle) (hu : t.Undisturbed) : UndisturbedStep t t.advance :=
  ⟨.advance, hp, fun _ => hu, rfl⟩

/-- The loop over the peers `l` that are still to come. -/
theorem updatePeers_steps {l : List PeerRef} (elapsed : ℤ) {fuel : ℕ} (hfuel : l.length ≤ fuel)
    (h : Consistent t.manager) (hphase : t.phase = .check l.head?) (helapsed : t.elapsed = elapsed)
    (hnext : ∀ l₁ r l₂, l = l₁ ++ r :: l₂ → t.manager.nextPeer r = l₂.head?)
    (hmade : ∀ r ∈ l, r < t.manager.peerCount) :
    ∃ collected, collected.map Prod.snd =
        (NetManager.updatePeers elapsed fuel l.head? t.manager).2 ∧
      (∀ c ∈ collected, c.1 ∈ l ∧ (t.manager.peerAt c.1).endpoint = c.2) ∧
      (NetManager.updatePeers elapsed fuel l.head? t.manager).1.peers = t.manager.peers ∧
      ReflTransGen UndisturbedStep t
        { manager := (NetManager.updatePeers elapsed fuel l.head? t.manager).1
          phase := .check none
          elapsed := elapsed
          peersToRemove := t.peersToRemove ++ collected } := by
  induction l generalizing t fuel with
  | nil =>
    have hloop : NetManager.updatePeers elapsed fuel none t.manager = (t.manager, []) := by
      cases fuel <;> rfl
    rw [List.head?_nil] at hphase ⊢
    rw [hloop]
    refine ⟨[], rfl, by simp, rfl, ?_⟩
    rw [List.append_nil, ← helapsed, ← hphase]
  | cons r l ih =>
    obtain ⟨fuel, rfl⟩ : ∃ n, fuel = n + 1 := ⟨fuel - 1, by
      rw [List.length_cons] at hfuel
      omega⟩
    rw [List.length_cons, Nat.add_le_add_iff_right] at hfuel
    have hr := hnext [] r l rfl
    have hnext' : ∀ l₁ q l₂, l = l₁ ++ q :: l₂ → t.manager.nextPeer q = l₂.head? :=
      fun l₁ q l₂ hl => hnext (r :: l₁) q l₂ (by rw [hl, List.cons_append])
    have hmade' : ∀ q ∈ l, q < t.manager.peerCount := fun q hq =>
      hmade q (List.mem_cons_of_mem r hq)
    have hadvance : ∀ t' : Threads, t'.phase = .check (some r) ∨ t'.phase = .update r ∨
        t'.phase = .next r → UndisturbedStep t' t'.advance := by
      intro t' hp
      apply advance_step
      · rcases hp with hp | hp | hp <;> rw [hp] <;> nofun
      · intro hc
        rcases hp with hp | hp | hp <;> cases hp.symm.trans hc
    rw [List.head?_cons] at hphase ⊢
    rw [NetManager.updatePeers]
    dsimp only
    split
    · next hstale =>
      have hcheck : t.advance = { t with
          phase := .next r
          peersToRemove := t.peersToRemove ++ [(r, (t.manager.peerAt r).endpoint)] } := by
        rw [Threads.advance, hphase]
        exact if_pos hstale
      have hcollect : t.advance.advance = { t with
          phase := .check l.head?
          peersToRemove := t.peersToRemove ++ [(r, (t.manager.peerAt r).endpoint)] } := by
        rw [hcheck, ← hr]
        rfl
      obtain ⟨collected, hcollected, hlisted, hpeers, hsteps⟩ := ih (t := t.advance.advance) hfuel
        (by rw [hcollect]; exact h) (by rw [hcollect]) (by rw [hcollect]; exact helapsed)
        (by rw [hcollect]; exact hnext') (by rw [hcollect]; exact hmade')
      have htwo : ReflTransGen UndisturbedStep t t.advance.advance :=
        (ReflTransGen.single (hadvance _ (.inl hphase))).tail
          (hadvance _ (.inr (.inr (by rw [hcheck]))))
      rw [hcollect] at hcollected hlisted hpeers
      refine ⟨(r, (t.manager.peerAt r).endpoint) :: collected, ?_, fun c hc => ?_, ?_,
        htwo.trans ?_⟩
      · rw [List.map_cons, hcollected, hr]
      · rcases List.mem_cons.mp hc with rfl | hc
        · exact ⟨List.mem_cons_self, rfl⟩
        · exact ⟨List.mem_cons_of_mem r (hlisted c hc).1, (hlisted c hc).2⟩
      · rw [hr]
        exact hpeers
      · rw [hcollect] at hsteps ⊢
        rw [List.append_assoc, List.singleton_append] at hsteps
        rw [hr]
        exact hsteps
    · next hstale =>
      have hupdate : Changes (threadScope (· = r)).inSession t.manager
          (t.manager.update r elapsed) :=
        NetManager.update_changes ((threadScope_open (· = r)).serving _)
          ⟨h, hmade r List.mem_cons_self, rfl⟩ rfl _
      have hevolves := Changes.evolves hupdate
      have hkept : (t.manager.update r elapsed).nextPeer = t.manager.nextPeer :=
        congrArg Bookkeeping.nextPeer (hevolves.kept id)
      have hcheck : t.advance = { t with phase := .update r } := by
        rw [Threads.advance, hphase]
        exact if_neg hstale
      have hthird : t.advance.advance.advance = { t with
          manager := t.manager.update r elapsed
          phase := .check l.head? } := by
        rw [hcheck, ← hr, ← hkept, ← helapsed]
        rfl
      obtain ⟨collected, hcollected, hlisted, hpeers, hsteps⟩ := ih
        (t := t.advance.advance.advance) hfuel
        (by rw [hthird]; exact Changes.consistent hupdate h) (by rw [hthird])
        (by rw [hthird]; exact helapsed) (by rw [hthird, hkept]; exact hnext')
        (by rw [hthird, (hevolves.fixed id).1]; exact hmade')
      have hthree : ReflTransGen UndisturbedStep t t.advance.advance.advance :=
        ((ReflTransGen.single (hadvance _ (.inl hphase))).tail
          (hadvance _ (.inr (.inl (by rw [hcheck]))))).tail
            (hadvance _ (.inr (.inr (by rw [hcheck]; rfl))))
      rw [hthird] at hcollected hlisted hpeers
      refine ⟨collected, ?_, fun c hc => ?_, ?_, hthree.trans ?_⟩
      · rw [hcollected, hkept, hr]
      · obtain ⟨hmem, hendpoint⟩ := hlisted c hc
        have hpeer := hevolves.peer c.1 (hmade' c.1 hmem)
        exact ⟨List.mem_cons_of_mem r hmem, hpeer.endpoint.symm.trans hendpoint⟩
      · rw [hkept, hr, hpeers]
        exact (hevolves.fixed id).2
      · rw [hthird] at hsteps ⊢
        rw [hkept, hr]
        exact hsteps

/-- A round in which no other thread steps in is one call of `update_logic`. -/
theorem updateLogic_steps {elapsed : ℤ} (he : 1 ≤ elapsed) (h : Consistent t.manager)
    (hregistered : Registered t.manager) (hidle : t.phase = .idle)
    (hempty : t.peersToRemove = []) :
    ReflTransGen UndisturbedStep t { t with
      manager := t.manager.updateLogic elapsed
      elapsed := elapsed } := by
  obtain ⟨listed, hl⟩ := hregistered
  have hlength : listed.length ≤ t.manager.peerCount := by
    have hsubset : listed ⊆ List.range t.manager.peerCount := fun r hr =>
      List.mem_range.mpr (hl.made r hr)
    simpa using (hl.linked.nodup.subperm hsubset).length_le
  have hwake : UndisturbedStep t (t.act (.wake elapsed)) := ⟨.wake elapsed, ⟨hidle, he⟩, nofun, rfl⟩
  obtain ⟨collected, hcollected, hlisted, hpeers, hsteps⟩ := updatePeers_steps
    (t := t.act (.wake elapsed)) elapsed hlength h (congrArg Phase.check hl.linked.head_eq) rfl
    hl.linked.next_eq hl.made
  have hpurged : (t.act (.wake elapsed)).peersToRemove ++ collected = collected := by
    change t.peersToRemove ++ collected = collected
    rw [hempty, List.nil_append]
  rw [hpurged] at hsteps
  refine (ReflTransGen.head hwake hsteps).tail ⟨.advance, nofun, fun _ _ c hc => .inr ?_, ?_⟩
  · obtain ⟨hmem, hendpoint⟩ := hlisted c hc
    change (NetManager.updatePeers elapsed t.manager.peerCount listed.head? _).1.peers _ = _
    rw [hpeers]
    exact (hl.peers _ _).mpr ⟨hmem, congrArg NetAddress.key hendpoint⟩
  · rw [hempty, hidle, NetManager.updateLogic, hl.linked.head_eq]
    exact congrArg (Threads.mk · .idle elapsed []) (congrArg (List.foldl _ _) hcollected)

/-- Where `update_logic` is one step, peers that take part in a session are found under their
addresses. -/
theorem live_of_reachable {m : NetManager} (h : Reachable NetManager.Fresh NetManager.Step m) :
    Consistent m ∧ Registered m ∧ Live m := by
  apply h.invariant (P := fun m => Consistent m ∧ Registered m ∧ Live m)
  · intro m hi
    have hinvariant := Start.invariant (t := ⟨m, .idle, 0, []⟩) ⟨hi.toInitial, rfl, rfl⟩
    exact ⟨hinvariant.consistent, hi.registered, hinvariant.live⟩
  · rintro m m' ⟨hm, hr, hl⟩ ⟨a, ha, rfl⟩
    have hchanges := NetManager.Step.changes ⟨a, ha, rfl⟩ hm
    refine ⟨Changes.consistent hchanges hm, Changes.registered hchanges hr, ?_⟩
    have hi : Invariant ⟨m, .idle, 0, []⟩ :=
      ⟨hm, hl, trivial, fun r hidle => (by cases hidle), fun c hc => absurd hc List.not_mem_nil⟩
    by_cases hu : ∃ elapsed, a = .updateLogic elapsed
    · obtain ⟨elapsed, rfl⟩ := hu
      have hround := updateLogic_steps (t := ⟨m, .idle, 0, []⟩) ha hm hr rfl rfl
      have hi' := preserved_of_run (P := Invariant)
        (fun t t' ht ⟨a, ha, hu, hact⟩ => hact ▸ ht.act ha hu) hi hround
      exact hi'.live
    · have hother : Invariant ((⟨m, .idle, 0, []⟩ : Threads).act (.other a)) :=
        hi.act ⟨ha, fun elapsed he => hu ⟨elapsed, he⟩⟩ nofun
      exact hother.live

/-- A manager before its first packet, and an update thread before its first round. -/
def quiet : Threads where
  manager := .new (.const 5) (.const 0) (.const .ok)
  phase := .idle
  elapsed := 0
  peersToRemove := []

/-- A connection that was told to disconnect gives up in one round, and its address is collected in
the next one. -/
def collecting : Threads :=
  ((((((((quiet.act (.other (.connect ⟨2, 1, 2, 0⟩ [] 0))).act
    (.other (.disconnectAll none 0 0))).act (.wake 6000)).act .advance).act .advance).act
      .advance).act .advance).act (.wake 15)).act .advance

theorem quiet_start : Start quiet := ⟨NetManager.initial_new _ _ _, rfl, rfl⟩

theorem collecting_reachable : Reachable Start UndisturbedStep collecting := by
  have hadvance : ∀ {t}, Reachable Start UndisturbedStep t →
      t.phase ≠ .idle ∧ t.Undisturbed → Reachable Start UndisturbedStep (t.act .advance) :=
    fun h hu => h.tail ⟨.advance, hu.1, fun _ => hu.2, rfl⟩
  have hwake : ∀ {t} elapsed, Reachable Start UndisturbedStep t →
      t.phase = .idle ∧ 1 ≤ elapsed → Reachable Start UndisturbedStep (t.act (.wake elapsed)) :=
    fun elapsed h hw => h.tail ⟨.wake elapsed, hw, nofun, rfl⟩
  have hshut : Reachable Start UndisturbedStep ((quiet.act (.other (.connect ⟨2, 1, 2, 0⟩ [] 0))).act
      (.other (.disconnectAll none 0 0))) :=
    ((Reachable.initial quiet_start).tail ⟨.other (.connect ..), ⟨trivial, nofun⟩, nofun, rfl⟩).tail
      ⟨.other (.disconnectAll ..), ⟨trivial, nofun⟩, nofun, rfl⟩
  have hround := hadvance (hadvance (hadvance (hadvance (hwake 6000 hshut (by decide +kernel))
    (by decide +kernel)) (by decide +kernel)) (by decide +kernel)) (by decide +kernel)
  exact hadvance (hwake 15 hround (by decide +kernel)) (by decide +kernel)

/-- The stale peer is removed when nothing intervenes. -/
theorem harmless_of_run_collecting : (collecting.act .advance).Harmless :=
  harmless_of_run (collecting_reachable.tail ⟨.advance, show collecting.phase ≠ .idle by decide +kernel,
    fun _ => by decide +kernel, rfl⟩) (by decide +kernel)

/-- The successor of the stale peer is removed in its place. -/
theorem not_always_harmless : ¬ ∀ t, Reachable Start Step t → t.Harmless := by
  intro h
  have hcollecting : Reachable Start Step collecting := by
    obtain ⟨t, ht, hrun⟩ := collecting_reachable
    exact ⟨t, ht, hrun.lift id (fun _ _ ⟨a, ha, _, hact⟩ => ⟨a, ha, hact⟩)⟩
  have hconnected := hcollecting.tail ⟨.other (.connect ⟨2, 1, 2, 0⟩ [] 0), ⟨trivial, nofun⟩, rfl⟩
  have hphase : (collecting.act (.other (.connect ⟨2, 1, 2, 0⟩ [] 0))).phase ≠ .idle := by
    decide +kernel
  have hremoves := (h _ (hconnected.tail ⟨.advance, hphase, rfl⟩)).removes
      (NetAddress.key ⟨2, 1, 2, 0⟩) 1 (by decide +kernel) (by decide +kernel)
  revert hremoves
  decide +kernel

end Threads

end LiteNet.Manager
