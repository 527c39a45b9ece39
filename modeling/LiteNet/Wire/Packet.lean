import LiteNet.Library.ByteBuffer
import LiteNet.Wire.Constants

/-! # The packet object

A packet is a zero-filled buffer, the number of its bytes in use and the user
pointer (zero for null). Every packet the program builds has room for the four
bytes of the channeled header, so its header accessors stay inside the buffer.
Fields are little-endian.
-/

namespace LiteNet.Wire
open Library

/-- The doubling loop of `ensure`, `fuel` rounds at most. -/
def growCapacity : ℕ → ℕ → ℕ → ℕ
  | 0, capacity, _ => capacity
  | fuel + 1, capacity, size =>
    if size ≤ capacity then capacity
    else growCapacity fuel (if capacity = 0 then 2 else capacity * 2) size

theorem le_growCapacity (fuel capacity size : ℕ) (h : size ≤ capacity + fuel) :
    size ≤ growCapacity fuel capacity size := by
  induction fuel generalizing capacity with
  | zero => simpa [growCapacity] using h
  | succ fuel ih =>
    rw [growCapacity]
    split
    · assumption
    · apply ih
      split <;> omega

theorem capacity_le_growCapacity (fuel capacity size : ℕ) :
    capacity ≤ growCapacity fuel capacity size := by
  induction fuel generalizing capacity with
  | zero => exact le_rfl
  | succ fuel ih =>
    rw [growCapacity]
    split
    · exact le_rfl
    · refine le_trans ?_ (ih _)
      split <;> omega

theorem growCapacity_le (fuel capacity size : ℕ) :
    growCapacity fuel capacity size ≤ max capacity (2 * size + 2) := by
  induction fuel generalizing capacity with
  | zero => exact le_max_left _ _
  | succ fuel ih =>
    rw [growCapacity]
    split
    · exact le_max_left _ _
    · refine (ih _).trans ?_
      split <;> omega

theorem four_le_growCapacity (fuel capacity size : ℕ) (hs : 3 ≤ size)
    (hc : capacity ≤ 2 ∧ capacity ≠ 1 ∨ 4 ≤ capacity) (h : size ≤ capacity + fuel) :
    4 ≤ growCapacity fuel capacity size := by
  induction fuel generalizing capacity with
  | zero => simp only [growCapacity]; omega
  | succ fuel ih =>
    rw [growCapacity]
    split
    · omega
    · apply ih
      · split <;> omega
      · split <;> omega

/-- `ensure` on the buffer: double the capacity until it is large enough, new bytes zero. -/
def ensure (data : Bytes) (size : ℕ) : Bytes :=
  data ++ List.replicate (growCapacity size data.length size - data.length) 0

theorem length_ensure (data : Bytes) (size : ℕ) :
    (ensure data size).length = growCapacity size data.length size := by
  have := capacity_le_growCapacity size data.length size
  simp only [ensure, List.length_append, List.length_replicate]
  omega

theorem le_length_ensure (data : Bytes) (size : ℕ) : size ≤ (ensure data size).length := by
  rw [length_ensure]
  exact le_growCapacity _ _ _ (by omega)

theorem length_le_length_ensure (data : Bytes) (size : ℕ) :
    data.length ≤ (ensure data size).length := by
  simp [ensure]

structure NetPacket where
  data : Bytes
  size : ℕ
  userData : ℕ
  header_le : channeledHeaderSize ≤ data.length
  size_le : size ≤ data.length

namespace NetPacket

@[ext] theorem ext {p q : NetPacket} (hd : p.data = q.data) (hs : p.size = q.size)
    (hu : p.userData = q.userData) : p = q := by
  cases p; cases q; simp_all

/-- A packet with a zero buffer grown from nothing for `size` bytes. -/
def alloc (size : ℕ) (h : 3 ≤ size) : NetPacket where
  data := ensure [] size
  size := size
  userData := 0
  header_le := by
    rw [length_ensure]
    exact four_le_growCapacity _ _ _ h (by simp) (by simp)
  size_le := le_length_ensure _ _

/-- `net_packet()`. -/
def empty : NetPacket := alloc maxPacketSize (by decide)

def bufferSize (p : NetPacket) : ℕ := p.data.length

/-- The bytes in use, which are what a datagram of the packet carries. -/
def wire (p : NetPacket) : Bytes := p.data.take p.size

/-- `m_data[i]`. -/
def byte (p : NetPacket) (i : ℕ) : UInt8 := p.data.getD i 0

def clear (p : NetPacket) : NetPacket :=
  { p with
    data := List.replicate p.data.length 0
    header_le := by simpa using p.header_le
    size_le := by simpa using p.size_le }

def resize (p : NetPacket) (size : ℕ) : NetPacket :=
  { p with
    data := ensure p.data size
    size := size
    header_le := p.header_le.trans (length_le_length_ensure _ _)
    size_le := le_length_ensure _ _ }

/-- Overwrite bytes of the buffer: `set_value_at`, `copy_from` and `memcpy` into `data()`. -/
def write (p : NetPacket) (position : ℕ) (bytes : Bytes) : NetPacket :=
  { p with
    data := writeBytes p.data position bytes
    header_le := by simpa using p.header_le
    size_le := by simpa using p.size_le }

/-- `get_value_at` for an unsigned value of `width` bytes. -/
def getValueAt (p : NetPacket) (position width : ℕ) : ℕ := readLE p.data position width

/-- `set_value_at` for an unsigned value of `width` bytes. -/
def setValueAt (p : NetPacket) (value position width : ℕ) : NetPacket :=
  p.write position (leBytes width value)

def copyFrom (p : NetPacket) (src : Bytes) (srcOffset position size : ℕ) : NetPacket :=
  p.write position (readBytes src srcOffset size)

def setByte (p : NetPacket) (i : ℕ) (b : UInt8) : NetPacket := p.write i [b]

/-- `m_data[0] & 0x1F`. -/
def propertyCode (p : NetPacket) : ℕ := (p.byte 0 &&& 0x1F).toNat

def property (p : NetPacket) : PacketProperty := .ofCode p.propertyCode

def setProperty (p : NetPacket) (property : PacketProperty) : NetPacket :=
  p.setByte 0 ((p.byte 0 &&& 0xE0) ||| UInt8.ofNat property.code)

def getHeaderSize (p : NetPacket) : ℕ := headerSizes.getD p.propertyCode 0

def isFragmented (p : NetPacket) : Bool := p.byte 0 &&& 0x80 != 0

def verify (p : NetPacket) : Bool :=
  if PacketProperty.count.code ≤ p.propertyCode then false
  else p.getHeaderSize ≤ p.size &&
    (!p.isFragmented || p.getHeaderSize + fragmentHeaderSize ≤ p.size)

theorem getHeaderSize_le (p : NetPacket) (h : p.verify = true) : p.getHeaderSize ≤ p.size := by
  rw [verify] at h
  split at h
  · cases h
  · rw [Bool.and_eq_true, decide_eq_true_eq] at h
    exact h.1

def connectionNumber (p : NetPacket) : UInt8 := (p.byte 0 &&& (0x60 : UInt8)) >>> (5 : UInt8)

def setConnectionNumber (p : NetPacket) (value : UInt8) : NetPacket :=
  p.setByte 0 ((p.byte 0 &&& (0x9F : UInt8)) ||| value <<< (5 : UInt8))

def sequence (p : NetPacket) : ℕ := p.getValueAt 1 2

def setSequence (p : NetPacket) (value : ℕ) : NetPacket := p.setValueAt value 1 2

def channelId (p : NetPacket) : UInt8 := p.byte 3

def setChannelId (p : NetPacket) (value : UInt8) : NetPacket := p.setByte 3 value

def fragmentId (p : NetPacket) : ℕ := p.getValueAt 4 2

def setFragmentId (p : NetPacket) (value : ℕ) : NetPacket := p.setValueAt value 4 2

def fragmentPart (p : NetPacket) : ℕ := p.getValueAt 6 2

def setFragmentPart (p : NetPacket) (value : ℕ) : NetPacket := p.setValueAt value 6 2

def totalFragments (p : NetPacket) : ℕ := p.getValueAt 8 2

def setTotalFragments (p : NetPacket) (value : ℕ) : NetPacket := p.setValueAt value 8 2

def markFragmented (p : NetPacket) : NetPacket := p.setByte 0 (p.byte 0 ||| 0x80)

end NetPacket

/-- `get_header_size(property)`. -/
def PacketProperty.getHeaderSize (p : PacketProperty) : ℕ := headerSizes.getD p.code 0

theorem PacketProperty.code_of_ofCode {n : ℕ} {c : PacketProperty} (h : ofCode n = c)
    (hc : c ≠ .count) : n = c.code := by
  rw [ofCode.eq_def] at h
  split at h <;> subst h <;> first | rfl | exact absurd rfl hc

namespace NetPacket

theorem getHeaderSize_of_property {p : NetPacket} {c : PacketProperty} (h : p.property = c)
    (hc : c ≠ .count) : p.getHeaderSize = c.getHeaderSize := by
  rw [getHeaderSize, PacketProperty.code_of_ofCode h hc, PacketProperty.getHeaderSize]

/-- `net_packet(property, size)`, for the properties and sizes of at least three bytes in all,
which are all the program asks for. -/
def new (property : PacketProperty) (size : ℕ) (h : 3 ≤ size + property.getHeaderSize) :
    NetPacket :=
  (alloc (size + property.getHeaderSize) h).setProperty property

theorem three_le_channeled : 3 ≤ 1 + PacketProperty.channeled.getHeaderSize := by decide

theorem three_le_ping : 3 ≤ 0 + PacketProperty.ping.getHeaderSize := by decide

/-- A datagram as `recvfrom` leaves it in a zeroed buffer. -/
def received (bytes : Bytes) : NetPacket := (empty.resize bytes.length).write 0 bytes

@[simp] theorem byte_alloc (size : ℕ) (h : 3 ≤ size) (i : ℕ) : (alloc size h).byte i = 0 := by
  have hd : (alloc size h).data = List.replicate (growCapacity size 0 size) 0 := by
    simp [alloc, ensure]
  rw [byte, hd, List.getD_eq_getElem?_getD, List.getElem?_replicate]
  split <;> rfl

@[simp] theorem byte_clear (p : NetPacket) (i : ℕ) : p.clear.byte i = 0 := by
  rw [byte, clear, List.getD_eq_getElem?_getD, List.getElem?_replicate]
  split <;> rfl

theorem byte_resize (p : NetPacket) (size : ℕ) {i : ℕ} (h : i < p.bufferSize) :
    (p.resize size).byte i = p.byte i := by
  have hd : (p.resize size).data = ensure p.data size := rfl
  rw [byte, hd, ensure, List.getD_eq_getElem?_getD, List.getElem?_append_left h, byte,
    List.getD_eq_getElem?_getD]

theorem byte_resize_zero {p : NetPacket} {i : ℕ} (h : p.byte i = 0) (size : ℕ) :
    (p.resize size).byte i = 0 := by
  by_cases hi : i < p.bufferSize
  · rw [byte_resize _ _ hi, h]
  · have hge : p.data.length ≤ i := not_lt.mp hi
    have hdata : (p.resize size).data = ensure p.data size := rfl
    rw [byte, hdata, ensure, List.getD_eq_getElem?_getD, List.getElem?_append_right hge,
      List.getElem?_replicate]
    split <;> rfl

theorem bufferSize_resize_le (p : NetPacket) (size : ℕ) :
    (p.resize size).bufferSize ≤ max p.bufferSize (2 * size + 2) :=
  (length_ensure p.data size).trans_le (growCapacity_le _ _ _)

theorem bufferSize_clear (p : NetPacket) : p.clear.bufferSize = p.bufferSize :=
  List.length_replicate

theorem bufferSize_le_resize (p : NetPacket) (size : ℕ) :
    p.bufferSize ≤ (p.resize size).bufferSize := length_le_length_ensure _ _

theorem byte_copyFrom (p : NetPacket) {src : Bytes} {position size : ℕ}
    (h : position < p.bufferSize) (hs : 1 ≤ size) (hl : size ≤ src.length) :
    (p.copyFrom src 0 position size).byte position = src.getD 0 0 := by
  have hlen := length_readBytes src 0 size (by omega)
  rw [byte, copyFrom, write, List.getD_eq_getElem?_getD, getElem?_writeBytes,
    if_pos ⟨le_rfl, by omega, h⟩, Nat.sub_self, getElem?_readBytes, if_pos (by omega),
    List.getD_eq_getElem?_getD]

@[simp] theorem size_new (property : PacketProperty) (size : ℕ)
    (h : 3 ≤ size + property.getHeaderSize) :
    (new property size h).size = size + property.getHeaderSize := rfl

section Write

variable (p : NetPacket) (i position : ℕ) (b : UInt8) (bytes : Bytes)

@[simp] theorem write_size : (p.write position bytes).size = p.size := rfl

@[simp] theorem write_userData : (p.write position bytes).userData = p.userData := rfl

@[simp] theorem write_bufferSize : (p.write position bytes).bufferSize = p.bufferSize := by
  simp [bufferSize, write]

theorem byte_write_of_disjoint (h : i < position ∨ position + bytes.length ≤ i) :
    (p.write position bytes).byte i = p.byte i :=
  getD_writeBytes_of_disjoint _ _ _ h

theorem byte_setByte (h : i < p.bufferSize) : (p.setByte i b).byte i = b := by
  have hi : i < p.data.length := h
  simp [setByte, write, byte, writeBytes, List.getD_eq_getElem?_getD, hi]

theorem byte_setByte_of_ne {i j : ℕ} (h : j ≠ i) : (p.setByte i b).byte j = p.byte j :=
  p.byte_write_of_disjoint j i [b] (by simp only [List.length_singleton]; omega)

theorem getValueAt_write_of_disjoint {q width : ℕ}
    (h : q + width ≤ position ∨ position + bytes.length ≤ q) :
    (p.write position bytes).getValueAt q width = p.getValueAt q width :=
  readLE_writeBytes_of_disjoint _ _ _ h

theorem getValueAt_setValueAt {value width : ℕ} (h : position + width ≤ p.bufferSize) :
    (p.setValueAt value position width).getValueAt position width = value % 256 ^ width :=
  readLE_writeLE_self _ h

theorem bufferSize_pos : 0 < p.bufferSize :=
  lt_of_lt_of_le (show 0 < channeledHeaderSize by decide) p.header_le

theorem three_lt_bufferSize : 3 < p.bufferSize :=
  lt_of_lt_of_le (show 3 < channeledHeaderSize by decide) p.header_le

end Write

private theorem shift_and_property (v : UInt8) : v <<< (5 : UInt8) &&& (0x1F : UInt8) = 0 := by
  refine forall_uint8 (P := fun v => v <<< (5 : UInt8) &&& (0x1F : UInt8) = 0) ?_ v
  decide +kernel

private theorem shift_and_number (v : UInt8) :
    (v <<< (5 : UInt8) &&& (0x60 : UInt8)) >>> (5 : UInt8) = v &&& 3 := by
  refine forall_uint8
    (P := fun v => (v <<< (5 : UInt8) &&& (0x60 : UInt8)) >>> (5 : UInt8) = v &&& 3) ?_ v
  decide +kernel

private theorem code_and (c : PacketProperty) : (UInt8.ofNat c.code &&& 0x1F).toNat = c.code ∧
    UInt8.ofNat c.code &&& 0x60 = 0 ∧ UInt8.ofNat c.code &&& 0x80 = 0 := by
  cases c <;> decide

private theorem number_and (b : UInt8) :
    (b &&& (0x60 : UInt8)) >>> (5 : UInt8) &&& 3 = (b &&& (0x60 : UInt8)) >>> (5 : UInt8) := by
  refine forall_uint8 (P := fun b => (b &&& (0x60 : UInt8)) >>> (5 : UInt8) &&& 3 =
    (b &&& (0x60 : UInt8)) >>> (5 : UInt8)) ?_ b
  decide +kernel

@[simp] theorem connectionNumber_and (p : NetPacket) :
    p.connectionNumber &&& 3 = p.connectionNumber := number_and _

theorem connectionNumber_lt (p : NetPacket) : p.connectionNumber.toNat < maxConnectionNumber := by
  refine forall_uint8
    (P := fun b => ((b &&& (0x60 : UInt8)) >>> (5 : UInt8)).toNat < maxConnectionNumber) ?_ _
  decide +kernel

theorem and_three_of_lt {number : UInt8} (h : number.toNat < maxConnectionNumber) :
    number &&& 3 = number := by
  revert h
  refine forall_uint8 (P := fun n => n.toNat < maxConnectionNumber → n &&& 3 = n) ?_ number
  decide +kernel

section Header

variable (p : NetPacket) (property : PacketProperty) (value : UInt8)

@[simp] theorem propertyCode_setProperty :
    (p.setProperty property).propertyCode = property.code := by
  rw [propertyCode, setProperty, byte_setByte _ _ _ p.bufferSize_pos, or_and_distrib,
    UInt8.and_assoc, show (0xE0 : UInt8) &&& 0x1F = 0 from rfl, UInt8.and_zero, UInt8.zero_or,
    (code_and property).1]

@[simp] theorem property_setProperty : (p.setProperty property).property = property := by
  simp [NetPacket.property]

@[simp] theorem connectionNumber_setProperty :
    (p.setProperty property).connectionNumber = p.connectionNumber := by
  rw [connectionNumber, setProperty, byte_setByte _ _ _ p.bufferSize_pos, or_and_distrib,
    UInt8.and_assoc, show (0xE0 : UInt8) &&& 0x60 = 0x60 from rfl, (code_and property).2.1,
    UInt8.or_zero, connectionNumber]

@[simp] theorem isFragmented_setProperty :
    (p.setProperty property).isFragmented = p.isFragmented := by
  rw [isFragmented, setProperty, byte_setByte _ _ _ p.bufferSize_pos, or_and_distrib,
    UInt8.and_assoc, show (0xE0 : UInt8) &&& 0x80 = 0x80 from rfl, (code_and property).2.2,
    UInt8.or_zero, isFragmented]

@[simp] theorem propertyCode_setConnectionNumber :
    (p.setConnectionNumber value).propertyCode = p.propertyCode := by
  rw [propertyCode, setConnectionNumber, byte_setByte _ _ _ p.bufferSize_pos, or_and_distrib,
    UInt8.and_assoc, show (0x9F : UInt8) &&& 0x1F = 0x1F from rfl, shift_and_property,
    UInt8.or_zero, propertyCode]

@[simp] theorem property_markFragmented : p.markFragmented.property = p.property := by
  have hb : (0x80 : UInt8) &&& 0x1F = 0 := rfl
  rw [NetPacket.property, propertyCode, markFragmented, byte_setByte _ _ _ p.bufferSize_pos,
    or_and_distrib, hb, UInt8.or_zero, NetPacket.property, propertyCode]

@[simp] theorem property_setConnectionNumber :
    (p.setConnectionNumber value).property = p.property := by
  simp [NetPacket.property]

private theorem shift_and_fragmented {n : UInt8} (h : n.toNat < maxConnectionNumber) :
    n <<< (5 : UInt8) &&& (0x80 : UInt8) = 0 := by
  revert h
  refine forall_uint8
    (P := fun n => n.toNat < maxConnectionNumber → n <<< (5 : UInt8) &&& (0x80 : UInt8) = 0) ?_ n
  decide +kernel

theorem isFragmented_setConnectionNumber (h : value.toNat < maxConnectionNumber) :
    (p.setConnectionNumber value).isFragmented = p.isFragmented := by
  rw [isFragmented, setConnectionNumber, byte_setByte _ _ _ p.bufferSize_pos, or_and_distrib,
    UInt8.and_assoc, show (0x9F : UInt8) &&& 0x80 = 0x80 from rfl, shift_and_fragmented h,
    UInt8.or_zero, isFragmented]

theorem verify_setConnectionNumber (h : value.toNat < maxConnectionNumber) :
    (p.setConnectionNumber value).verify = p.verify := by
  rw [verify, verify, isFragmented_setConnectionNumber p value h, getHeaderSize, getHeaderSize,
    propertyCode_setConnectionNumber]
  rfl

/-- Only the two low bits of a connection number reach the header. -/
@[simp] theorem connectionNumber_setConnectionNumber :
    (p.setConnectionNumber value).connectionNumber = value &&& 3 := by
  rw [connectionNumber, setConnectionNumber, byte_setByte _ _ _ p.bufferSize_pos, or_and_distrib,
    UInt8.and_assoc, show (0x9F : UInt8) &&& 0x60 = 0 from rfl, UInt8.and_zero, UInt8.zero_or,
    shift_and_number]

end Header

section Channeled

variable (p : NetPacket) (v : ℕ) (id number : UInt8)

@[simp] theorem size_setSequence : (p.setSequence v).size = p.size := rfl

@[simp] theorem size_setChannelId : (p.setChannelId id).size = p.size := rfl

@[simp] theorem size_setConnectionNumber : (p.setConnectionNumber number).size = p.size := rfl

@[simp] theorem size_setProperty (c : PacketProperty) : (p.setProperty c).size = p.size := rfl

theorem propertyCode_write (position : ℕ) (bytes : Bytes) (h : 0 < position) :
    (p.write position bytes).propertyCode = p.propertyCode := by
  rw [propertyCode, byte_write_of_disjoint _ _ _ _ (.inl h), propertyCode]

theorem property_write (position : ℕ) (bytes : Bytes) (h : 0 < position) :
    (p.write position bytes).property = p.property := by
  rw [property, propertyCode_write _ _ _ h, property]

theorem connectionNumber_write (position : ℕ) (bytes : Bytes) (h : 0 < position) :
    (p.write position bytes).connectionNumber = p.connectionNumber := by
  rw [connectionNumber, byte_write_of_disjoint _ _ _ _ (.inl h), connectionNumber]

@[simp] theorem property_setSequence : (p.setSequence v).property = p.property :=
  p.property_write 1 _ one_pos

@[simp] theorem property_setChannelId : (p.setChannelId id).property = p.property :=
  p.property_write 3 _ three_pos

@[simp] theorem sequence_setSequence : (p.setSequence v).sequence = v % 65536 :=
  p.getValueAt_setValueAt 1 (by have := p.three_lt_bufferSize; omega)

@[simp] theorem sequence_setChannelId : (p.setChannelId id).sequence = p.sequence :=
  p.getValueAt_write_of_disjoint 3 [id] (.inl le_rfl)

@[simp] theorem sequence_setConnectionNumber :
    (p.setConnectionNumber number).sequence = p.sequence :=
  p.getValueAt_write_of_disjoint 0 [_] (.inr le_rfl)

@[simp] theorem sequence_setProperty (c : PacketProperty) :
    (p.setProperty c).sequence = p.sequence :=
  p.getValueAt_write_of_disjoint 0 [_] (.inr le_rfl)

@[simp] theorem channelId_setSequence : (p.setSequence v).channelId = p.channelId :=
  p.byte_write_of_disjoint 3 1 _ (.inr (by simp))

@[simp] theorem channelId_setChannelId : (p.setChannelId id).channelId = id :=
  p.byte_setByte 3 id p.three_lt_bufferSize

@[simp] theorem channelId_setConnectionNumber :
    (p.setConnectionNumber number).channelId = p.channelId :=
  p.byte_setByte_of_ne _ (by decide)

@[simp] theorem channelId_setProperty (c : PacketProperty) :
    (p.setProperty c).channelId = p.channelId :=
  p.byte_setByte_of_ne _ (by decide)

theorem sequence_lt : p.sequence < 65536 := readLE_lt _ _ _

end Channeled

theorem length_wire (p : NetPacket) : p.wire.length = p.size := by
  simpa [wire] using p.size_le

theorem getElem?_wire (p : NetPacket) {i : ℕ} (h : i < p.size) : p.wire[i]? = p.data[i]? := by
  simp [wire, h]

@[simp] theorem size_received (bytes : Bytes) : (received bytes).size = bytes.length := rfl

theorem getElem?_received (bytes : Bytes) {i : ℕ} (h : i < bytes.length) :
    (received bytes).data[i]? = bytes[i]? := by
  have hl := le_length_ensure empty.data bytes.length
  rw [received, write, getElem?_writeBytes, if_pos, Nat.sub_zero]
  exact ⟨Nat.zero_le i, by omega, h.trans_le hl⟩

@[simp] theorem wire_received (bytes : Bytes) : (received bytes).wire = bytes := by
  apply List.ext_getElem?
  intro i
  by_cases h : i < bytes.length
  · rw [getElem?_wire _ h, getElem?_received _ h]
  · rw [List.getElem?_eq_none, List.getElem?_eq_none (by omega)]
    rw [length_wire, size_received]
    omega

section OfWire

variable {p q : NetPacket} {position width : ℕ}

theorem size_eq_of_wire (h : q.wire = p.wire) : q.size = p.size := by
  rw [← length_wire q, h, length_wire]

theorem readBytes_of_wire (h : q.wire = p.wire) (hle : position + width ≤ p.size) :
    readBytes q.data position width = readBytes p.data position width := by
  have hwire : ∀ r : NetPacket, position + width ≤ r.size →
      readBytes r.wire position width = readBytes r.data position width := by
    intro r hr
    apply List.ext_getElem?
    intro i
    rw [getElem?_readBytes, getElem?_readBytes]
    by_cases hi : i < width
    · rw [if_pos hi, if_pos hi, getElem?_wire r (by omega)]
    · rw [if_neg hi, if_neg hi]
  rw [← hwire q (by rw [size_eq_of_wire h]; exact hle), h, hwire p hle]

theorem getValueAt_of_wire (h : q.wire = p.wire) (hle : position + width ≤ p.size) :
    q.getValueAt position width = p.getValueAt position width := by
  rw [getValueAt, readLE, readBytes_of_wire h hle, getValueAt, readLE]

theorem byte_of_wire (h : q.wire = p.wire) {i : ℕ} (hi : i < p.size) : q.byte i = p.byte i := by
  rw [byte, List.getD_eq_getElem?_getD, ← getElem?_wire q (by rwa [size_eq_of_wire h]), h,
    getElem?_wire p hi, byte, List.getD_eq_getElem?_getD]

theorem propertyCode_of_wire (h : q.wire = p.wire) (hs : 0 < p.size) :
    q.propertyCode = p.propertyCode := by
  rw [propertyCode, byte_of_wire h hs, propertyCode]

theorem property_of_wire (h : q.wire = p.wire) (hs : 0 < p.size) : q.property = p.property := by
  rw [property, propertyCode_of_wire h hs, property]

theorem connectionNumber_of_wire (h : q.wire = p.wire) (hs : 0 < p.size) :
    q.connectionNumber = p.connectionNumber := by
  rw [connectionNumber, byte_of_wire h hs, connectionNumber]

/-- Whether a packet verifies depends on its size and its first byte. -/
theorem verify_congr (hsize : q.size = p.size) (hbyte : q.byte 0 = p.byte 0) :
    q.verify = p.verify := by
  rw [verify, verify, getHeaderSize, getHeaderSize, isFragmented, isFragmented, propertyCode,
    propertyCode, hbyte, hsize]

theorem verify_of_wire (h : q.wire = p.wire) (hs : 0 < p.size) : q.verify = p.verify :=
  verify_congr (size_eq_of_wire h) (byte_of_wire h hs)

end OfWire

theorem byte_received (p : NetPacket) {i : ℕ} (h : i < p.size) :
    (received p.wire).byte i = p.byte i :=
  byte_of_wire (wire_received _) h

theorem getValueAt_received (p : NetPacket) {position width : ℕ} (h : position + width ≤ p.size) :
    (received p.wire).getValueAt position width = p.getValueAt position width :=
  getValueAt_of_wire (wire_received _) h

theorem property_received (p : NetPacket) (h : 1 ≤ p.size) :
    (received p.wire).property = p.property :=
  property_of_wire (wire_received _) h

theorem sequence_received (p : NetPacket) (h : 3 ≤ p.size) :
    (received p.wire).sequence = p.sequence :=
  getValueAt_received p h

theorem channelId_received (p : NetPacket) (h : 4 ≤ p.size) :
    (received p.wire).channelId = p.channelId :=
  byte_received p h

theorem wire_write_wire {p q : NetPacket} (h : p.size = q.size) :
    (p.write 0 q.wire).wire = q.wire := by
  have hle : 0 + q.wire.length ≤ p.data.length := by
    rw [length_wire, ← h, Nat.zero_add]
    exact p.size_le
  have htake := take_writeBytes p.data 0 q.wire hle
  rwa [Nat.zero_add, length_wire, ← h, List.take_zero, List.nil_append] at htake

/-- What is read into a buffer that has room for it is what the packet then holds. -/
theorem wire_write_resize {p : NetPacket} {bytes : Bytes} (h : bytes.length ≤ p.bufferSize) :
    ((p.write 0 bytes).resize bytes.length).wire = bytes := by
  have hle : 0 + bytes.length ≤ p.data.length := by rwa [Nat.zero_add]
  have htake := take_writeBytes p.data 0 bytes hle
  rw [Nat.zero_add, List.take_zero, List.nil_append] at htake
  have hroom : bytes.length ≤ (writeBytes p.data 0 bytes).length := by
    rw [length_writeBytes]
    exact h
  change ((ensure (writeBytes p.data 0 bytes) bytes.length).take bytes.length) = bytes
  rw [ensure, List.take_append_of_le_length hroom, htake]

theorem verify_write_wire {p q : NetPacket} (h : p.size = q.size) (hs : 1 ≤ q.size) :
    (p.write 0 q.wire).verify = q.verify :=
  verify_of_wire (wire_write_wire h) hs

end NetPacket

end LiteNet.Wire
