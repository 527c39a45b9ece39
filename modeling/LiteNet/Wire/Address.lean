import LiteNet.Library.ByteBuffer

/-! # Socket addresses

The sixteen bytes of a `sockaddr_in`. Two addresses are equal when family, port
and host are; the padding travels with the address but is not compared.
-/

namespace LiteNet.Wire
open Library

structure NetAddress where
  family : UInt16
  /-- in network byte order, as stored -/
  port : UInt16
  addr : UInt32
  zero : UInt64
  deriving DecidableEq, Repr

namespace NetAddress

/-- What `operator==` compares. -/
abbrev Key : Type := UInt16 × UInt16 × UInt32

def key (a : NetAddress) : Key := (a.family, a.port, a.addr)

/-- `sizeof(address.raw)`. -/
def rawSize : ℕ := 16

def raw (a : NetAddress) : Bytes :=
  leBytes 2 a.family.toNat ++ leBytes 2 a.port.toNat ++ leBytes 4 a.addr.toNat ++
    leBytes 8 a.zero.toNat

def ofRaw (bytes : Bytes) : NetAddress where
  family := UInt16.ofNat (readLE bytes 0 2)
  port := UInt16.ofNat (readLE bytes 2 2)
  addr := UInt32.ofNat (readLE bytes 4 4)
  zero := UInt64.ofNat (readLE bytes 8 8)

@[simp] theorem length_raw (a : NetAddress) : a.raw.length = rawSize := by
  simp [raw, rawSize]

end NetAddress

end LiteNet.Wire
