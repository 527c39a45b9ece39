import LiteNet.Manager.DispatchChanges

/-! # Requests and their answers over whole runs

A request waits under its address exactly until it is answered, and no address has
both a waiting request and a peer. So the first answer always finds its address free.
-/

namespace LiteNet.Manager
open Library Wire Relation

theorem Books.mono {P Q : RequestRef → Prop} (hPQ : ∀ q, P q → Q q) {m : NetManager}
    (h : Books P m) : Books Q m where
  waiting := by
    intro k q hq
    obtain ⟨hlt, hkey, hunused⟩ := h.waiting k q hq
    exact ⟨hlt, hkey, fun hn => hunused (fun hp => hn (hPQ q hp))⟩
  pending := fun q hlt hn hu => h.pending q hlt (fun hp => hn (hPQ q hp)) hu
  number := h.number

/-- Once the request that was being answered is answered and forgotten, the books are in order. -/
theorem Books.answered {q : RequestRef} {m : NetManager} (h : Books (· = q) m)
    (hused : (m.requestAt q).used = true)
    (hgone : m.connectionRequests (m.requestAt q).remoteEndpoint.key = none) :
    Books (fun _ => False) m where
  waiting := by
    intro k q' hq'
    obtain ⟨hlt, hkey, hunused⟩ := h.waiting k q' hq'
    refine ⟨hlt, hkey, fun _ => hunused ?_⟩
    rintro rfl
    rw [hkey, hq'] at hgone
    cases hgone
  pending := by
    intro q' hlt _ hu
    refine h.pending q' hlt ?_ hu
    rintro rfl
    rw [hused] at hu
    cases hu
  number := h.number

namespace NetManager

/-- A scope in which everything may happen, but only some requests are answered. -/
def answerScope (answers : RequestRef → Prop) : Scope := { fullScope with answers := answers }

theorem answerScope_open (answers : RequestRef → Prop) : (answerScope answers).Open where
  closes := trivial
  registers := trivial
  opens := fun _ _ => trivial
  plain := fun _ _ _ => trivial
  accept := fun _ _ _ _ _ => trivial

section Answers

variable {m : NetManager} {q : RequestRef}

/-- An answer to a request that was answered before changes nothing. -/
theorem act_of_used {a : Action} (ha : a.answered = some q)
    (hu : (m.requestAt q).used = true) : m.act a = m := by
  cases a with
  | accept q' =>
    cases ha
    rw [act, accept, if_pos hu]
  | acceptIfKey q' expectedKey =>
    cases ha
    rw [act, acceptIfKey, if_pos hu]
  | reject q' rejectData offset size force =>
    cases ha
    rw [act, reject, if_pos hu]
  | _ => cases ha

theorem onConnectionSolved_gone (m : NetManager) (q : RequestRef) (rejectData : Option Bytes)
    (offset size : ℕ) : (m.onConnectionSolved q rejectData offset size).1.connectionRequests
      (m.requestAt q).remoteEndpoint.key = none := by
  rw [onConnectionSolved]
  dsimp only
  split_ifs <;> exact Function.update_self ..

theorem activate_used (x : NetManager) (q : RequestRef) (result : ConnectionRequestResult) :
    ((x.activate q result).requestAt q).used = true := by
  have hself : (x.activate q result).requestAt q =
      { x.requestAt q with used := true, result := result } := Function.update_self ..
  rw [hself]

/-- `accept_if_key` solves the activated request, whatever its reader returned. -/
theorem solved_ifKey (m : NetManager) (q : RequestRef) (key : Option Bytes)
    (reader : NetDataReader) (expectedKey : Bytes) :
    ∃ (x : NetManager) (result : ConnectionRequestResult), x.requestCount = m.requestCount ∧
      (if key = some expectedKey then
        ({ m with requestAt := Function.update m.requestAt q { m.requestAt q with
            internalPacket.data := reader } }.activate q .accept).onConnectionSolved q none 0 0
        else ((({ m with requestAt := Function.update m.requestAt q { m.requestAt q with
            internalPacket.data := reader } }.activate q .reject).onConnectionSolved q none 0 0).1,
          none)).1 = ((x.activate q result).onConnectionSolved q none 0 0).1 := by
  generalize hx : ({ m with requestAt := Function.update m.requestAt q { m.requestAt q with
    internalPacket.data := reader } } : NetManager) = x
  have hcount : x.requestCount = m.requestCount := by rw [← hx]
  by_cases hk : key = some expectedKey
  · exact ⟨x, .accept, hcount, by rw [if_pos hk]⟩
  · exact ⟨x, .reject, hcount, by rw [if_neg hk]⟩

/-- The first answer activates the request and solves it. -/
theorem act_of_unused {a : Action} (ha : a.answered = some q)
    (hu : (m.requestAt q).used = false) :
    ∃ (x : NetManager) (result : ConnectionRequestResult) (rejectData : Option Bytes)
      (offset size : ℕ), x.requestCount = m.requestCount ∧
        m.act a = ((x.activate q result).onConnectionSolved q rejectData offset size).1 := by
  have hn : ¬ (m.requestAt q).used = true := by
    rw [hu]
    exact Bool.false_ne_true
  cases a with
  | accept q' =>
    cases ha
    exact ⟨m, .accept, none, 0, 0, rfl, by rw [act, accept, if_neg hn]⟩
  | acceptIfKey q' expectedKey =>
    cases ha
    unfold act acceptIfKey
    simp only [if_neg hn]
    generalize (m.requestAt q).internalPacket.data.tryReadString = key
    obtain ⟨x, result, h⟩ := solved_ifKey m q key.1 key.2 expectedKey
    exact ⟨x, result, none, 0, 0, h⟩
  | reject q' rejectData offset size force =>
    cases ha
    exact ⟨m, _, rejectData, offset, size, rfl, by rw [act, reject, if_neg hn]⟩
  | _ => cases ha

/-- After the first answer the request is answered and forgotten. -/
theorem act_answered {a : Action} (ha : a.answered = some q) (hq : q < m.requestCount)
    (hu : (m.requestAt q).used = false) : ((m.act a).requestAt q).used = true ∧
      (m.act a).connectionRequests ((m.act a).requestAt q).remoteEndpoint.key = none := by
  obtain ⟨x, result, rejectData, offset, size, hcount, heq⟩ := act_of_unused ha hu
  have hkeeps := Changes.requests (onConnectionSolved_changes (S := fullScope) fullScope_open
    (x.activate q result) (q := q) ⟨trivial, fun _ _ => trivial, trivial⟩ rejectData offset size)
  have hlt : q < (x.activate q result).requestCount := hcount ▸ hq
  rw [heq, hkeeps.endpoint q hlt]
  exact ⟨hkeeps.used q hlt (x.activate_used q result), onConnectionSolved_gone ..⟩

theorem newAccepted_registers {m : NetManager} {request : NetConnectionRequest}
    (fresh : m.peers request.remoteEndpoint.key = none) :
    (((m.newAccepted request).addPeer m.peerCount).peerAt m.peerCount).connectionState =
      .connected ∧ ((m.newAccepted request).addPeer m.peerCount).peers request.remoteEndpoint.key =
        some m.peerCount := by
  have hnumbered := Numbered.getNextPeerId m
  have hfresh : m.getNextPeerId.2.peers request.remoteEndpoint.key = none := by
    rw [hnumbered.peers]
    exact fresh
  rw [newAccepted, ← hnumbered.peerCount]
  dsimp only
  generalize hp : ({ NetPeer.new m.channelsCount request.remoteEndpoint m.getNextPeerId.1 with
    connectTime := request.internalPacket.connectionTime
    connectNumber := request.internalPacket.connectionNumber
    remoteId := request.internalPacket.peerId
    connectAcceptPacket := some (NetConnectAcceptPacket.make
      request.internalPacket.connectionTime request.internalPacket.connectionNumber
      m.getNextPeerId.1) } : NetPeer) = p
  have hendpoint : p.endpoint = request.remoteEndpoint := by rw [← hp]; rfl
  have hstate : p.connectionState = .connected := by rw [← hp]; rfl
  rw [← hendpoint] at hfresh ⊢
  generalize (NetConnectAcceptPacket.make request.internalPacket.connectionTime
    request.internalPacket.connectionNumber m.getNextPeerId.1).wire = bytes
  have hregisters := newPeer_registers hfresh bytes
  rw [hregisters.1]
  exact ⟨hstate, hregisters.2⟩

/-- An accept of a request whose address is free registers a connected peer. -/
theorem accept_registers (hu : (m.requestAt q).used = false)
    (fresh : m.peers (m.requestAt q).remoteEndpoint.key = none) :
    (m.accept q).2 = some m.peerCount ∧
      ((m.accept q).1.peerAt m.peerCount).connectionState = .connected ∧
      (m.accept q).1.peers (m.requestAt q).remoteEndpoint.key = some m.peerCount := by
  have hn : ¬ (m.requestAt q).used = true := by
    rw [hu]
    exact Bool.false_ne_true
  have hself : (m.activate q .accept).requestAt q =
      { m.requestAt q with used := true, result := .accept } := Function.update_self ..
  have hfresh : (m.activate q .accept).peers (m.requestAt q).remoteEndpoint.key = none := fresh
  have hregisters := @newAccepted_registers (m.activate q .accept)
    { m.requestAt q with used := true, result := .accept } hfresh
  rw [accept, if_neg hn, onConnectionSolved, hself]
  dsimp only
  rw [if_neg (by decide), hfresh, Option.isSome_none, if_neg Bool.false_ne_true,
    if_neg (by decide)]
  obtain ⟨e, -, -, -, he⟩ := createEvent_eq (((m.activate q .accept).newAccepted
    { m.requestAt q with used := true, result := .accept }).addPeer m.peerCount)
    { type := .connect, peer := some m.peerCount }
  have hcount : (m.activate q .accept).peerCount = m.peerCount := rfl
  rw [hcount] at hregisters ⊢
  rw [he]
  exact ⟨rfl, hregisters⟩

end Answers

/-- Only the action that answers a request takes it out. -/
theorem Step.books {m m' : NetManager} (h : Step m m') (hm : Consistent m)
    (hb : Books (fun _ => False) m) : Books (fun _ => False) m' := by
  obtain ⟨a, ha, rfl⟩ := h
  have hreceives : ∀ answers bytes addr, Lets (answerScope answers) m (m.receivePacket bytes) addr :=
    fun _ _ _ => ⟨fun _ _ _ => trivial, fun _ _ _ _ _ => trivial⟩
  cases hanswered : a.answered with
  | none =>
    have hchanges := act_changes (answerScope_open (fun _ => False)) hm ha
      ⟨fun bytes addr _ => hreceives _ bytes addr, fun _ _ => ⟨id, fun _ => trivial⟩,
        fun _ _ _ _ _ _ _ => trivial,
        fun q hq => absurd (hanswered.symm.trans hq) nofun⟩
    exact Changes.books (fun _ => id) hchanges hb
  | some q =>
    have hq : q < m.requestCount := by
      cases a <;> cases hanswered <;> exact ha
    by_cases hu : (m.requestAt q).used = true
    · rw [act_of_used hanswered hu]
      exact hb
    · rw [Bool.not_eq_true] at hu
      have hwaits := hb.pending q hq id hu
      have hchanges := act_changes (answerScope_open (· = q)) hm ha
        ⟨fun bytes addr _ => hreceives _ bytes addr, fun _ _ => ⟨id, fun _ => trivial⟩,
          fun _ _ _ _ _ _ _ => trivial,
          fun q' hq' => ?_⟩
      · have hbooks : Books (· = q) (m.act a) :=
          Changes.books (fun _ => id) hchanges (hb.mono (fun _ => False.elim))
        have hanswer := act_answered hanswered hq hu
        exact hbooks.answered hanswer.1 hanswer.2
      · cases hanswered.symm.trans hq'
        refine ⟨rfl, fun q' hq' => ?_, trivial⟩
        exact Option.some.inj (hq'.symm.trans hwaits)

theorem books_of_reachable {m : NetManager} (h : Reachable Initial Step m) :
    Books (fun _ => False) m := by
  have hboth : Consistent m ∧ Books (fun _ => False) m := by
    apply h.invariant (P := fun m => Consistent m ∧ Books (fun _ => False) m)
    · exact fun m hi => ⟨hi.consistent, hi.books _⟩
    · exact fun m m' hm hs => ⟨Changes.consistent (hs.changes hm.1) hm.1, hs.books hm.1 hm.2⟩
  exact hboth.2

theorem used_of_run {m m' : NetManager} (h : ReflTransGen Step m m') (hm : Consistent m) :
    KeepsRequests m m' := by
  induction h with
  | refl => exact .of_eq rfl rfl
  | tail hr hs ih =>
    have hconsistent := (consistent_of_run hr hm).1
    exact ih.trans (Changes.requests (hs.changes hconsistent))

/-- In every state that is reached no address has both a peer and a waiting request, a request
waits exactly while it is unanswered, accepting one then connects a peer under its address, and
once it is answered every further answer, however late, changes nothing. -/
theorem requests_of_reachable {m : NetManager} (h : Reachable Initial Step m) :
    (∀ k, m.peers k = none ∨ m.connectionRequests k = none) ∧
    (∀ q < m.requestCount,
      (m.connectionRequests (m.requestAt q).remoteEndpoint.key = some q ↔
        (m.requestAt q).used = false) ∧
      ∀ k, m.connectionRequests k = some q → k = (m.requestAt q).remoteEndpoint.key) ∧
    (∀ q < m.requestCount, (m.requestAt q).used = false →
      (m.accept q).2 = some m.peerCount ∧
        ((m.accept q).1.peerAt m.peerCount).connectionState = .connected ∧
        (m.accept q).1.peers (m.requestAt q).remoteEndpoint.key = some m.peerCount) ∧
    ∀ q < m.requestCount, ∀ a : Action, a.answered = some q → ∀ m',
      ReflTransGen Step (m.act a) m' → ∀ later : Action, later.answered = some q →
        m'.act later = m' := by
  have hm := consistent_of_reachable h
  have hb := books_of_reachable h
  refine ⟨fun k => ?_, fun q hq => ⟨⟨fun hk => ?_, fun hu => hb.pending q hq id hu⟩,
    fun k hk => (hb.waiting k q hk).2.1.symm⟩, fun q hq hu => ?_, fun q hq a ha m' hr later hl => ?_⟩
  · cases hp : m.peers k with
    | none => exact .inl rfl
    | some r => exact .inr (hm.separate k r hp)
  · exact (hb.waiting _ q hk).2.2 id
  · have hwaits := hb.pending q hq id hu
    exact accept_registers hu (hm.free hwaits)
  · have hstep : Step m (m.act a) := by
      refine ⟨a, ?_, rfl⟩
      cases a <;> cases ha <;> exact hq
    have hkeeps := Changes.requests (hstep.changes hm)
    have hm' := Changes.consistent (hstep.changes hm) hm
    have hused : ((m.act a).requestAt q).used = true := by
      by_cases hu : (m.requestAt q).used = true
      · exact hkeeps.used q hq hu
      · exact (act_answered ha hq (Bool.not_eq_true _ ▸ hu)).1
    have hlt := hq.trans_le hkeeps.count
    exact act_of_used hl ((used_of_run hr hm').used q hlt hused)

/-- A server that was asked for a connection at time 5. -/
def askedServer : NetManager :=
  (NetManager.new (.const 5) (.const 0) (.const .ok)).act
    (.receive (NetConnectRequestPacket.make [] ⟨2, 1, 2, 0⟩ 5 0).wire ⟨2, 1, 3, 0⟩)

theorem askedServer_reachable : Reachable Initial Step askedServer :=
  (Reachable.initial (initial_new _ _ _)).tail
    ⟨.receive _ _, show _ ≤ maxPacketSize by decide +kernel, rfl⟩

theorem requests_of_reachable_asked : (askedServer.accept 0).2 = some askedServer.peerCount ∧
    ((askedServer.accept 0).1.peerAt askedServer.peerCount).connectionState = .connected ∧
    (askedServer.accept 0).1.peers (askedServer.requestAt 0).remoteEndpoint.key =
      some askedServer.peerCount :=
  (requests_of_reachable askedServer_reachable).2.2.1 0 (by decide +kernel) (by decide +kernel)

end NetManager

end LiteNet.Manager
