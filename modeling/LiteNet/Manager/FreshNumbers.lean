import LiteNet.Manager.KeyedConnect

/-! # The number of a new session

A request that replaces a peer waits with another connection number than the peer had.
Requests that arrive before the answer bring their own numbers, and the last one of the
greatest connect time decides. So the new session is told from the old one unless that
request carries the old number.
-/

namespace LiteNet.Manager
open Library Wire
open NetConnectRequestPacket (Asked)

/-- Of requests that arrive after one of this time, the one that is left waiting has the number
`n`. -/
def Brings (n : UInt8) (time : Int64) (requests : List Asked) : Prop :=
  ∃ before sent after, requests = before ++ sent :: after ∧ sent.number = n ∧
    time ≤ sent.time ∧ (∀ x ∈ before, x.time ≤ sent.time) ∧ ∀ x ∈ after, x.time < sent.time

section Brings

variable {n : UInt8} {time : Int64} {x : Asked} {requests : List Asked}

theorem Brings.cons (h : Brings n time requests)
    (hx : ∀ sent : Asked, time ≤ sent.time → x.time ≤ sent.time) {time' : Int64}
    (htime : ∀ sent : Asked, time ≤ sent.time → time' ≤ sent.time) :
    Brings n time' (x :: requests) := by
  obtain ⟨before, sent, after, rfl, hnumber, hsent, hbefore, hafter⟩ := h
  refine ⟨x :: before, sent, after, rfl, hnumber, htime sent hsent, ?_, hafter⟩
  exact List.forall_mem_cons.mpr ⟨hx sent hsent, hbefore⟩

/-- A request that is older than the one that waits brings nothing. -/
theorem brings_cons_of_lt (hold : x.time < time) :
    Brings n time (x :: requests) ↔ Brings n time requests := by
  constructor
  · rintro ⟨before, sent, after, hsplit, hnumber, hsent, hbefore, hafter⟩
    cases before with
    | nil =>
      obtain ⟨rfl, rfl⟩ := List.cons.inj hsplit
      exact absurd (Int64.lt_of_lt_of_le hold hsent) Int64.lt_irrefl
    | cons y before =>
      obtain ⟨rfl, rfl⟩ := List.cons.inj hsplit
      exact ⟨before, sent, after, rfl, hnumber, hsent, (List.forall_mem_cons.mp hbefore).2, hafter⟩
  · exact fun h => h.cons
      (fun sent hsent => Int64.le_of_lt (Int64.lt_of_lt_of_le hold hsent)) (fun _ => id)

/-- Any other request waits itself until a later one takes its place. -/
theorem brings_cons_of_le (hle : time ≤ x.time) : Brings n time (x :: requests) ↔
    Brings n x.time requests ∨ x.number = n ∧ ∀ y ∈ requests, y.time < x.time := by
  constructor
  · rintro ⟨before, sent, after, hsplit, hnumber, hsent, hbefore, hafter⟩
    cases before with
    | nil =>
      obtain ⟨rfl, rfl⟩ := List.cons.inj hsplit
      exact .inr ⟨hnumber, hafter⟩
    | cons y before =>
      obtain ⟨rfl, rfl⟩ := List.cons.inj hsplit
      obtain ⟨hx, hbefore⟩ := List.forall_mem_cons.mp hbefore
      exact .inl ⟨before, sent, after, rfl, hnumber, hx, hbefore, hafter⟩
  · rintro (h | ⟨hnumber, hafter⟩)
    · exact h.cons (fun _ => id) (fun _ => Int64.le_trans hle)
    · exact ⟨[], x, requests, rfl, hnumber, hle, by simp, hafter⟩

/-- A request that is not older than the one that waits takes its place. -/
theorem newer_of_le {waiting sent : Asked} (h : waiting.time ≤ sent.time) :
    (newer waiting sent).time = sent.time ∧ (newer waiting sent).number = sent.number := by
  rw [newer, if_neg (Int64.not_lt.mpr h)]
  split
  · next hsame => exact ⟨hsame.1.symm, hsame.2.symm⟩
  · exact ⟨rfl, rfl⟩

theorem foldl_newer_number (n : UInt8) (waiting : Asked) (requests : List Asked) :
    (requests.foldl newer waiting).number = n ↔ Brings n waiting.time requests ∨
      waiting.number = n ∧ ∀ x ∈ requests, x.time < waiting.time := by
  induction requests generalizing waiting with
  | nil => simp [Brings]
  | cons x requests ih =>
    rw [List.foldl_cons, ih, List.forall_mem_cons]
    by_cases hold : x.time < waiting.time
    · have hkept : newer waiting x = waiting := if_pos hold
      rw [hkept, brings_cons_of_lt hold]
      simp only [hold, true_and]
    · have hle := Int64.not_lt.mp hold
      obtain ⟨htime, hnumber⟩ := newer_of_le hle
      rw [htime, hnumber, brings_cons_of_le hle]
      simp only [hold, false_and, and_false, or_false]

end Brings

namespace NetManager

variable {m m' : NetManager} {k : NetAddress.Key} {q : RequestRef} {r : PeerRef} {asked : Asked}

/-- An answer accepts the request `q` and makes the peer `r`. -/
def Accepts (m : NetManager) (q : RequestRef) (m' : NetManager) (r : PeerRef) : Prop :=
  m.accept q = (m', some r) ∨ ∃ expectedKey, m.acceptIfKey q expectedKey = (m', some r)

theorem accepts_accept (h : (m.accept q).2 = some r) : Accepts m q (m.accept q).1 r :=
  .inl (Prod.ext rfl h)

theorem foldl_renews (as : List Action) (asked : Asked) :
    as.foldl (Action.renews k) asked = (as.filterMap (Action.asks k)).foldl newer asked := by
  induction as generalizing asked with
  | nil => rfl
  | cons a as ih =>
    rw [List.foldl_cons, ih, List.filterMap_cons, Action.renews]
    cases a.asks k <;> rfl

/-- `accept_if_key` makes a peer only where it does what `accept` does. -/
theorem accept_of_acceptIfKey {expectedKey : Bytes} (hu : (m.requestAt q).used = false)
    (h : m.acceptIfKey q expectedKey = (m', some r)) :
    ∃ reader, (m.movedReader q reader).accept q = (m', some r) := by
  obtain ⟨reader, heq⟩ := m.acceptIfKey_eq hu expectedKey
  rw [h] at heq
  split at heq
  · exact ⟨reader, heq.symm⟩
  · cases heq

theorem accept_makes (hu : (m.requestAt q).used = false)
    (fresh : m.peers (m.requestAt q).remoteEndpoint.key = none)
    (h : m.accept q = (m', some r)) :
    (m'.peerAt r).connectionState = .connected ∧
      (m'.peerAt r).connectNumber = (m.requestAt q).internalPacket.connectionNumber := by
  obtain ⟨hsome, hconnected, -⟩ := accept_registers hu fresh
  obtain ⟨-, hnumber⟩ := accept_asked hu fresh
  rw [h, Option.some.injEq] at hsome
  rw [← hsome, h] at hconnected hnumber
  exact ⟨hconnected, hnumber⟩

/-- However the request that waits is accepted, the peer has its number. -/
theorem Waits.accepts (hw : Waits m k q asked) (h : Reachable Fresh Step m)
    (ha : Accepts m q m' r) :
    (m'.peerAt r).connectionState = .connected ∧ (m'.peerAt r).connectNumber = asked.number := by
  have hinitial := h.of_init (fun _ hfresh => hfresh.toInitial)
  obtain ⟨-, hkey, hunused⟩ := (books_of_reachable hinitial).waiting k q hw.waiting
  have hfresh : m.peers (m.requestAt q).remoteEndpoint.key = none := by
    rw [hkey]
    exact (consistent_of_reachable hinitial).free hw.waiting
  have hnumber : (m.requestAt q).internalPacket.connectionNumber = asked.number :=
    congrArg Asked.number hw.asked
  rcases ha with ha | ⟨expectedKey, ha⟩
  · rw [← hnumber]
    exact accept_makes (hunused id) hfresh ha
  · obtain ⟨reader, ha⟩ := accept_of_acceptIfKey (hunused id) ha
    have hmoved := m.movedReader_self q reader
    have hmakes := accept_makes (m := m.movedReader q reader) (by rw [hmoved]; exact hunused id)
      (by rw [hmoved]; exact hfresh) ha
    rw [hmoved] at hmakes
    rw [← hnumber]
    exact hmakes

/-- A connected peer recycles whatever has another connection number. -/
theorem processPacket_of_number {packet : NetPacket}
    (connected : (m.peerAt r).connectionState = .connected)
    (number : packet.connectionNumber ≠ (m.peerAt r).connectNumber) :
    m.processPacket r packet = m.poolRecycle packet := by
  have hsame : m.setPeer r (m.peerAt r) = m := by
    rw [setPeer, Function.update_eq_self]
  have hconnected : (m.peerAt r).isConnected = true := by
    rw [NetPeer.isConnected, connected]
    rfl
  have hopen : ¬ (m.peerAt r).connectionState = .shutdownRequested := by
    rw [connected]
    exact (fun h => by cases h)
  rw [processPacket, processPacketTo, processPacketWith]
  dsimp only
  rw [hconnected, Bool.not_true, if_neg Bool.false_ne_true]
  by_cases hok : packet.property = .shutdownOk
  · rw [if_pos hok, if_neg hopen, hsame]
  · rw [if_neg hok, if_pos number]

/-- A request has replaced a peer, and whatever else happens before an answer accepts it: the new
session has another number than the old one and recycles its packets exactly if the requests of the
address do not bring the old number back. -/
theorem fresh_number_iff (h : Reachable Fresh Step m) {bytes : Bytes}
    (hs : bytes.length ≤ maxPacketSize) {addr : NetAddress} (hr : m.tryGetPeer addr = some r)
    {sent : Asked} (ha : NetConnectRequestPacket.asked (.received bytes) = some sent)
    (hyields : (m.peerAt r).YieldsTo sent.time) :
    ∃ q, (m.act (.receive bytes addr)).connectionRequests addr.key = some q ∧
      ∀ as, Unanswered q (m.act (.receive bytes addr)) as →
        ∀ m' r', Accepts (as.foldl NetManager.act (m.act (.receive bytes addr))) q m' r' →
          ((m'.peerAt r').connectNumber ≠ (m.peerAt r).connectNumber ∧
            (∀ packet : NetPacket, packet.connectionNumber = (m.peerAt r).connectNumber →
              m'.processPacket r' packet = m'.poolRecycle packet) ↔
            ¬ Brings (m.peerAt r).connectNumber sent.time
              (as.filterMap (Action.asks addr.key))) := by
  obtain ⟨hm, -, -⟩ := Threads.live_of_reachable h
  obtain ⟨q, hwaits⟩ := receive_waits hm hs hr ha hyields
  refine ⟨q, hwaits.waiting, fun as has m' r' haccepts => ?_⟩
  obtain ⟨hlater, hrenewed⟩ := waits_of_run (h.tail ⟨.receive bytes addr, hs, rfl⟩) hwaits has
  obtain ⟨hconnected, hnumber⟩ := hrenewed.accepts hlater haccepts
  have hbrings := foldl_newer_number (m.peerAt r).connectNumber
    { sent with number := nextConnectionNumber (m.peerAt r).connectNumber }
    (as.filterMap (Action.asks addr.key))
  rw [← foldl_renews, ← hnumber] at hbrings
  have hiff : (m'.peerAt r').connectNumber = (m.peerAt r).connectNumber ↔
      Brings (m.peerAt r).connectNumber sent.time (as.filterMap (Action.asks addr.key)) :=
    hbrings.trans (or_iff_left (fun hnext => nextConnectionNumber_ne _ hnext.1))
  rw [← hiff]
  constructor
  · exact And.left
  · exact fun hne => ⟨hne, fun packet hp => processPacket_of_number hconnected (hp ▸ Ne.symm hne)⟩

/-- A later request of the client, with another number. -/
def renumbered : Action := .receive
  ((NetConnectRequestPacket.make [] ⟨2, 1, 2, 0⟩ 7 0).setConnectionNumber 2).wire ⟨2, 1, 3, 0⟩

theorem acceptedServer_yields : (acceptedServer.peerAt 0).YieldsTo 6 :=
  .inl ⟨by decide +kernel, by decide +kernel⟩

theorem fresh_number_iff_acceptedServer :
    let m := (acceptedServer.act restart).act renumbered
    ((m.accept 1).1.peerAt 1).connectNumber ≠ (acceptedServer.peerAt 0).connectNumber ∧
      ∀ packet : NetPacket, packet.connectionNumber = (acceptedServer.peerAt 0).connectNumber →
        (m.accept 1).1.processPacket 1 packet = (m.accept 1).1.poolRecycle packet := by
  have hpeer : acceptedServer.tryGetPeer ⟨2, 1, 3, 0⟩ = some 0 := by decide +kernel
  obtain ⟨q, hq, hrun⟩ := fresh_number_iff acceptedServer_fresh (restart_enabled acceptedServer)
    hpeer restart_asks acceptedServer_yields
  have hone : (acceptedServer.act restart).connectionRequests (⟨2, 1, 3, 0⟩ : NetAddress).key =
      some 1 := by decide +kernel
  obtain rfl : q = 1 := Option.some.inj (hq.symm.trans hone)
  have haccepts : Accepts ((acceptedServer.act restart).act renumbered) 1
      (((acceptedServer.act restart).act renumbered).accept 1).1 1 :=
    accepts_accept (by decide +kernel)
  have hlast := hrun [renumbered] ⟨show _ ≤ maxPacketSize by decide +kernel,
    (fun h => by cases h), trivial⟩
  rw [List.foldl_cons, List.foldl_nil] at hlast
  refine (hlast _ 1 haccepts).mpr ?_
  rintro ⟨before, sent, after, hsplit, hnumber, -⟩
  have hsent : sent ∈ [renumbered].filterMap (Action.asks (⟨2, 1, 3, 0⟩ : NetAddress).key) := by
    rw [hsplit]
    simp
  have hasks : [renumbered].filterMap (Action.asks (⟨2, 1, 3, 0⟩ : NetAddress).key) =
      [⟨7, 2, some []⟩] := by decide +kernel
  rw [hasks, List.mem_singleton] at hsent
  rw [hsent] at hnumber
  exact absurd hnumber (by decide +kernel)

/-- The client's request arrives once more, and the new session has the number of the old one. -/
theorem not_always_fresh_number : ¬ ∀ (m : NetManager) (bytes : Bytes) (addr : NetAddress)
    (r : PeerRef) (sent : Asked) (q : RequestRef) (as : List Action) (m' : NetManager)
    (r' : PeerRef), Reachable Fresh Step m → bytes.length ≤ maxPacketSize →
    m.tryGetPeer addr = some r → NetConnectRequestPacket.asked (.received bytes) = some sent →
    (m.peerAt r).YieldsTo sent.time →
    (m.act (.receive bytes addr)).connectionRequests addr.key = some q →
    Unanswered q (m.act (.receive bytes addr)) as →
    Accepts (as.foldl NetManager.act (m.act (.receive bytes addr))) q m' r' →
    (m'.peerAt r').connectNumber ≠ (m.peerAt r).connectNumber := by
  intro h
  have haccepts : Accepts ((acceptedServer.act restart).act restart) 1
      (((acceptedServer.act restart).act restart).accept 1).1 1 :=
    accepts_accept (by decide +kernel)
  have hsame : ((((acceptedServer.act restart).act restart).accept 1).1.peerAt 1).connectNumber =
      (acceptedServer.peerAt 0).connectNumber := by decide +kernel
  have hlast := h acceptedServer (NetConnectRequestPacket.make [] ⟨2, 1, 2, 0⟩ 6 0).wire
    ⟨2, 1, 3, 0⟩ 0 ⟨6, 0, some []⟩ 1 [restart]
    (((acceptedServer.act restart).act restart).accept 1).1 1 acceptedServer_fresh
    (restart_enabled acceptedServer) (by decide +kernel) restart_asks acceptedServer_yields
    (by decide +kernel) ⟨restart_enabled _, (fun h => by cases h), trivial⟩
  rw [List.foldl_cons, List.foldl_nil] at hlast
  exact hlast haccepts hsame

end NetManager

end LiteNet.Manager
