import LiteNet.Wire.Packet

/-! # The header byte of a datagram -/

namespace LiteNet.Wire
open Library

def headerByte (bytes : Bytes) : UInt8 := bytes.getD 0 0

def headerProperty (bytes : Bytes) : PacketProperty := .ofCode (headerByte bytes &&& 0x1F).toNat

def headerNumber (bytes : Bytes) : UInt8 := (headerByte bytes &&& (0x60 : UInt8)) >>> (5 : UInt8)

theorem headerByte_readBytes (data : Bytes) (position : ℕ) {size : ℕ} (h : 1 ≤ size) :
    headerByte (readBytes data position size) = data.getD position 0 := by
  rw [headerByte, List.getD_eq_getElem?_getD, getElem?_readBytes, if_pos (by omega),
    List.getD_eq_getElem?_getD, Nat.add_zero]

/-- Cutting off the end of a datagram leaves its header. -/
theorem headerProperty_take (bytes : Bytes) {size : ℕ} (h : 0 < size) :
    headerProperty (bytes.take size) = headerProperty bytes := by
  rw [headerProperty, headerProperty, headerByte, headerByte, List.getD_eq_getElem?_getD,
    List.getElem?_take_of_lt h, List.getD_eq_getElem?_getD]

namespace NetPacket

variable (p : NetPacket)

theorem headerByte_wire (h : 1 ≤ p.size) : headerByte p.wire = p.byte 0 := by
  rw [headerByte, byte, List.getD_eq_getElem?_getD, getElem?_wire p h, List.getD_eq_getElem?_getD]

theorem headerProperty_wire (h : 1 ≤ p.size) : headerProperty p.wire = p.property := by
  rw [headerProperty, headerByte_wire p h, property, propertyCode]

theorem headerNumber_wire (h : 1 ≤ p.size) : headerNumber p.wire = p.connectionNumber := by
  rw [headerNumber, headerByte_wire p h, connectionNumber]

/-- A packet with a header of this kind that was never given a connection number. -/
structure Unstamped (c : PacketProperty) (p : NetPacket) : Prop where
  byte_eq : p.byte 0 = UInt8.ofNat c.code
  size_pos : 1 ≤ p.size

namespace Unstamped

variable {c : PacketProperty} {p}

theorem write (h : p.Unstamped c) {i : ℕ} (hp : 0 < i) (bytes : Bytes) :
    (p.write i bytes).Unstamped c where
  byte_eq := by rw [byte_write_of_disjoint _ _ _ _ (.inl hp), h.byte_eq]
  size_pos := h.size_pos

theorem setValueAt (h : p.Unstamped c) (value : ℕ) {position : ℕ} (hp : 0 < position)
    (width : ℕ) : (p.setValueAt value position width).Unstamped c :=
  h.write hp _

theorem setSequence (h : p.Unstamped c) (v : ℕ) : (p.setSequence v).Unstamped c := h.write one_pos _

private theorem code_bits (c : PacketProperty) :
    PacketProperty.ofCode (UInt8.ofNat c.code &&& 0x1F).toNat = c ∧
      (UInt8.ofNat c.code &&& (0x60 : UInt8)) >>> (5 : UInt8) = 0 := by
  cases c <;> decide

theorem headerProperty (h : p.Unstamped c) : headerProperty p.wire = c := by
  rw [Wire.headerProperty, headerByte_wire p h.size_pos, h.byte_eq, (code_bits c).1]

theorem headerNumber (h : p.Unstamped c) : headerNumber p.wire = 0 := by
  rw [Wire.headerNumber, headerByte_wire p h.size_pos, h.byte_eq, (code_bits c).2]

theorem property_eq (h : p.Unstamped c) : p.property = c := by
  rw [← headerProperty_wire p h.size_pos, h.headerProperty]

/-- A packet that has room for its header verifies. -/
theorem verify (h : p.Unstamped c) (hc : c ≠ .count) (hs : c.getHeaderSize ≤ p.size) :
    p.verify = true := by
  have hbits : ∀ c : PacketProperty, (UInt8.ofNat c.code &&& (0x1F : UInt8)).toNat = c.code ∧
      (UInt8.ofNat c.code &&& (0x80 : UInt8) != 0) = false ∧
      (c ≠ .count → ¬ PacketProperty.count.code ≤ c.code) ∧
      headerSizes.getD c.code 0 = c.getHeaderSize := by
    intro c
    cases c <;> decide
  obtain ⟨hcode, hfragmented, hknown, hheader⟩ := hbits c
  have hproperty : p.propertyCode = c.code := by
    rw [propertyCode, h.byte_eq, hcode]
  rw [NetPacket.verify, hproperty, if_neg (hknown hc), getHeaderSize, hproperty, hheader,
    isFragmented, h.byte_eq, hfragmented, decide_eq_true hs]
  rfl

end Unstamped

/-- Giving a zero header byte a property leaves the number zero. -/
theorem setProperty_unstamped {p : NetPacket} (h : p.byte 0 = 0) (hs : 1 ≤ p.size)
    (c : PacketProperty) : (p.setProperty c).Unstamped c where
  byte_eq := by
    rw [setProperty, byte_setByte _ _ _ p.bufferSize_pos, h, UInt8.zero_and, UInt8.zero_or]
  size_pos := hs

theorem new_unstamped (c : PacketProperty) (size : ℕ) (h : 3 ≤ size + c.getHeaderSize) :
    (new c size h).Unstamped c :=
  setProperty_unstamped (byte_alloc _ _ _) (by change 1 ≤ size + c.getHeaderSize; omega) c

end NetPacket

end LiteNet.Wire
