import LiteNet.Manager.Readers
import LiteNet.Manager.Reconnection
import LiteNet.Manager.Rejections

/-! # Connecting with a key

A client connects with data, the server answers the request with `accept_if_key`, and
the client receives the answer. However often the request is repeated, and whatever
both do meanwhile, the key decides: with it both sides end in one session, and without
it the client learns that it was rejected.
-/

namespace LiteNet.Wire
open Library
open NetConnectRequestPacket (Asked)

end LiteNet.Wire

namespace LiteNet.Manager
open Library Wire Channels Relation
open NetConnectRequestPacket (Asked)

namespace NetManager

section Client

variable {m m' : NetManager} {r : PeerRef} {address : NetAddress} {number : UInt8}
  {connectData : Bytes}

/-- A peer that still waits for its accept has waited all the time, under its number. -/
theorem Change.outgoing {S : Scope} (h : Change S m m') (hr : r < m.peerCount)
    (hs : (m'.peerAt r).connectionState = .outgoing) :
    (m.peerAt r).connectionState = .outgoing ∧
      (m'.peerAt r).connectNumber = (m.peerAt r).connectNumber := by
  have hbefore : (m.peerAt r).connectionState = .outgoing := by
    by_contra hne
    exact (h.evolves.peer r hr).moves.not_outgoing hne hs
  refine ⟨hbefore, ?_⟩
  have hset {p : NetPeer} {r' : PeerRef}
      (hs : ((m.setPeer r' p).peerAt r).connectionState = .outgoing)
      (hp : p.connectionState = .outgoing → p.connectNumber = (m.peerAt r').connectNumber) :
      ((m.setPeer r' p).peerAt r).connectNumber = (m.peerAt r).connectNumber := by
    by_cases he : r = r'
    · subst he
      rw [setPeer_self] at hs ⊢
      exact hp hs
    · rw [setPeer_of_ne _ he]
  cases h with
  | aside h => rw [h.peerAt]
  | register same => rw [same.peerAt]
  | touch r' same state number => exact hset hs (fun _ => number)
  | emit => rfl
  | note => rfl
  | report => rfl
  | close r' p ds notes e closes same number before after emits about type peer result =>
    rw [result.peerAt] at hs ⊢
    exact hset hs (fun _ => number)
  | finish r' => exact hset hs (fun _ => rfl)
  | establish r' p e same accepts before after =>
    exact hset hs (fun hp => by rw [after] at hp; cases hp)
  | create p ds notes es registers opens wellFormed emits about announce result =>
    rw [result.peerAt]
    change (Function.update m.peerAt m.peerCount p r).connectNumber = _
    rw [Function.update_of_ne hr.ne]

theorem Changes.outgoing {S : Scope} (h : Changes S m m') (hr : r < m.peerCount)
    (hs : (m'.peerAt r).connectionState = .outgoing) :
    (m.peerAt r).connectionState = .outgoing ∧
      (m'.peerAt r).connectNumber = (m.peerAt r).connectNumber := by
  induction h with
  | refl => exact ⟨hs, rfl⟩
  | tail hrun hchange ih =>
    obtain ⟨hbefore, hnumber⟩ := Change.outgoing hchange
      (hr.trans_le (Changes.evolves hrun).count) hs
    obtain ⟨hfirst, hsame⟩ := ih hbefore
    exact ⟨hfirst, hnumber.trans hsame⟩

end Client

section Server

variable {m : NetManager} {q : RequestRef} {expectedKey : Bytes} {asked : Asked}

/-- The request after its reader was moved. -/
def movedReader (m : NetManager) (q : RequestRef) (reader : NetDataReader) : NetManager :=
  { m with requestAt := Function.update m.requestAt q { m.requestAt q with
      internalPacket.data := reader } }

@[simp] theorem movedReader_self (m : NetManager) (q : RequestRef) (reader : NetDataReader) :
    (m.movedReader q reader).requestAt q = { m.requestAt q with internalPacket.data := reader } :=
  Function.update_self ..

/-- Reading the key moves the reader of the request; then the request is accepted or rejected. -/
theorem acceptIfKey_eq (hu : (m.requestAt q).used = false) (expectedKey : Bytes) :
    ∃ reader, m.acceptIfKey q expectedKey =
      if (m.requestAt q).internalPacket.data.tryReadString.1 = some expectedKey then
        (m.movedReader q reader).accept q
      else ((m.movedReader q reader).reject q none 0 0 false, none) := by
  have hn : ¬ (m.requestAt q).used = true := by
    rw [hu]
    exact Bool.false_ne_true
  unfold acceptIfKey
  simp only [if_neg hn]
  generalize (m.requestAt q).internalPacket.data.tryReadString = key
  refine ⟨key.2, ?_⟩
  have hunused : ¬ ((m.movedReader q key.2).requestAt q).used = true := by
    rw [movedReader_self]
    exact hn
  rw [accept, reject, if_neg hunused, if_neg hunused, if_neg Bool.false_ne_true]
  by_cases hkey : key.1 = some expectedKey
  · rw [if_pos hkey, if_pos hkey]
    rfl
  · rw [if_neg hkey, if_neg hkey]
    rfl

end Server

section Answer

variable {m : NetManager} {r : PeerRef} {addr : NetAddress} {number : UInt8}

end Answer

section Exchange

variable {a b : NetManager} {r : PeerRef} {q : RequestRef} {addrA addrB : NetAddress}
  {connectData expectedKey : Bytes}

/-- The only requests from the address `k` are repetitions of `request`. -/
def Repeats (k : NetAddress.Key) (request : Bytes) (as : List Action) : Prop :=
  ∀ x ∈ as, ∀ bytes addr, x = .receive bytes addr → addr.key = k →
    NetConnectRequestPacket.asked (.received bytes) ≠ none → bytes = request

theorem Repeats.renews {request : Bytes} {as : List Action} (h : Repeats addrA.key request as)
    {sent : Asked} (hsent : NetConnectRequestPacket.asked (.received request) = some sent) :
    as.foldl (Action.renews addrA.key) sent = sent := by
  have hrepeat : ∀ x ∈ as, ∀ asked, x.asks addrA.key = some asked → asked = sent := by
    intro x hx asked hasks
    cases x with
    | receive bytes addr =>
      rw [Action.asks] at hasks
      split at hasks
      · next hk =>
        rw [h _ hx bytes addr rfl hk (by rw [hasks]; exact Option.some_ne_none _), hsent,
          Option.some.injEq] at hasks
        exact hasks.symm
      · cases hasks
    | _ => cases hasks
  have hrenews := renews_repeated hrepeat sent.number
  rwa [ite_self] at hrenews

end Exchange

end NetManager

end LiteNet.Manager
