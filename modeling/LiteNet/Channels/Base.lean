import Mathlib.Data.Rat.Defs
import LiteNet.Library.SerialNumber
import LiteNet.Wire.Packet

/-! # What all channels share

A channel keeps packets to send and a flag that says whether it stands in its
peer's send queue. Its methods return the calls they make on the peer, in order,
since none of these calls reads or writes the channel back.
-/

namespace LiteNet.Channels
open Library Wire

/-- `relative_sequence_number`. -/
def relativeSequenceNumber (number expected : ℤ) : ℤ :=
  (number - expected + maxSequence + halfMaxSequence).tmod maxSequence - halfMaxSequence

theorem maxSequence_eq : maxSequence = 2 * halfMaxSequence := rfl

theorem relativeSequenceNumber_eq (number expected : ℤ) :
    relativeSequenceNumber number expected = serialDistance halfMaxSequence number expected := by
  rw [relativeSequenceNumber, serialDistance, maxSequence_eq]
  push_cast
  rfl

/-- While two counters are within half the range, their wrapped distance is the true one. -/
theorem relativeSequenceNumber_wrapped {i j : ℕ} (hl : j ≤ i + halfMaxSequence)
    (hu : i < j + halfMaxSequence) :
    relativeSequenceNumber ((i % maxSequence : ℕ) : ℤ) ((j % maxSequence : ℕ) : ℤ) = (i : ℤ) - j := by
  rw [relativeSequenceNumber_eq, maxSequence_eq]
  exact serialDistance_wrapped hl hu

/-- A call of a channel on its peer. -/
inductive PeerCall where
  | addToReliableChannelSendQueue
  | addReliablePacket (method : DeliveryMethod) (packet : NetPacket)
  | createReceiveEvent (packet : NetPacket) (method : DeliveryMethod) (channelNumber : UInt8)
      (headerSize : ℕ)
  | sendUserData (packet : NetPacket)
  | recycleAndDeliver (packet : NetPacket)
  | poolRecycle (packet : NetPacket)

/-- What a channel reads of its peer and of the clock while it sends. `sendUserData` stamps the
packet it is given with the connection number, so the packets a channel keeps carry it too. -/
structure ChannelContext where
  connectNumber : UInt8
  resendDelay : ℚ
  currentTime : ℤ

structure NetBaseChannel where
  outgoingQueue : List NetPacket
  canEnqueue : Bool
  isAddedToPeerChannelSendQueue : ℕ

namespace NetBaseChannel

def new : NetBaseChannel where
  outgoingQueue := []
  canEnqueue := true
  isAddedToPeerChannelSendQueue := 0

/-- The compare-and-swap of the flag guards the push. -/
def addToPeerChannelSendQueue (b : NetBaseChannel) : NetBaseChannel × List PeerCall :=
  if b.isAddedToPeerChannelSendQueue = 0 then
    ({ b with isAddedToPeerChannelSendQueue := 1 }, [.addToReliableChannelSendQueue])
  else (b, [])

def addToQueue (b : NetBaseChannel) (packet : NetPacket) : NetBaseChannel × List PeerCall :=
  if !b.canEnqueue then (b, [.poolRecycle packet])
  else addToPeerChannelSendQueue { b with outgoingQueue := b.outgoingQueue ++ [packet] }

/-- The end of `send_and_check_queue`: without more to send the flag is taken down. -/
def checkQueue (b : NetBaseChannel) (hasPacketsToSend : Bool) : NetBaseChannel :=
  if hasPacketsToSend then b else { b with isAddedToPeerChannelSendQueue := 0 }

variable (b : NetBaseChannel) (packet : NetPacket)

@[simp] theorem addToPeerChannelSendQueue_outgoingQueue :
    b.addToPeerChannelSendQueue.1.outgoingQueue = b.outgoingQueue := by
  rw [addToPeerChannelSendQueue]
  split <;> rfl

@[simp] theorem addToPeerChannelSendQueue_canEnqueue :
    b.addToPeerChannelSendQueue.1.canEnqueue = b.canEnqueue := by
  rw [addToPeerChannelSendQueue]
  split <;> rfl

@[simp] theorem checkQueue_outgoingQueue (h : Bool) :
    (b.checkQueue h).outgoingQueue = b.outgoingQueue := by
  cases h <;> rfl

@[simp] theorem checkQueue_canEnqueue (h : Bool) : (b.checkQueue h).canEnqueue = b.canEnqueue := by
  cases h <;> rfl

end NetBaseChannel

end LiteNet.Channels
