import LiteNet.Library.ByteBuffer

/-! # The data reader

A reader is a view of a packet's buffer with a size and a position. Bounds are
checked by an unsigned subtraction.
-/

namespace LiteNet.Wire
open Library

/-- Subtraction of two values of type `size_t`. -/
def sizeSub (a b : ℕ) : ℕ := (a + 2 ^ 64 - b) % 2 ^ 64

theorem sizeSub_of_le {a b : ℕ} (ha : a < 2 ^ 64) (h : b ≤ a) : sizeSub a b = a - b := by
  rw [sizeSub, Nat.add_comm a, Nat.add_sub_assoc h, Nat.add_mod_left, Nat.mod_eq_of_lt (by omega)]

-- unfolded on variables, the literal would be counted down
attribute [irreducible] sizeSub

structure NetDataReader where
  data : Bytes
  size : ℕ
  position : ℕ

namespace NetDataReader

/-- All that is left to read. -/
def rest (r : NetDataReader) : Bytes := readBytes r.data r.position (r.size - r.position)

/-- `try_read` of raw bytes. -/
def tryRead (r : NetDataReader) (size : ℕ) : Option (Bytes × NetDataReader) :=
  if sizeSub r.size r.position < size then none
  else some (readBytes r.data r.position size, { r with position := r.position + size })

/-- `try_read` of a string; a failure leaves the length field consumed. -/
def tryReadString (r : NetDataReader) : Option Bytes × NetDataReader :=
  match r.tryRead 2 with
  | none => (none, r)
  | some (length, r) =>
    match r.tryRead (ofLEBytes length) with
    | none => (none, r)
    | some (bytes, r) => (some bytes, r)

section

variable {read : NetDataReader → ℕ → Option (Bytes × NetDataReader)} {r r' r'' : NetDataReader}
  {length bytes : Bytes}

/-- The two reads of a string, over any way to read bytes. -/
def stringWith (read : NetDataReader → ℕ → Option (Bytes × NetDataReader)) (r : NetDataReader) :
    Option Bytes × NetDataReader :=
  match read r 2 with
  | none => (none, r)
  | some (length, r) =>
    match read r (ofLEBytes length) with
    | none => (none, r)
    | some (bytes, r) => (some bytes, r)

theorem tryReadString_eq : tryReadString = stringWith tryRead := rfl

theorem stringWith_of_none (h : read r 2 = none) : stringWith read r = (none, r) := by
  rw [stringWith, h]

theorem stringWith_of_cut (h : read r 2 = some (length, r'))
    (h' : read r' (ofLEBytes length) = none) : stringWith read r = (none, r') := by
  rw [stringWith, h]
  dsimp only
  rw [h']

theorem stringWith_of_some (h : read r 2 = some (length, r'))
    (h' : read r' (ofLEBytes length) = some (bytes, r'')) :
    stringWith read r = (some bytes, r'') := by
  rw [stringWith, h]
  dsimp only
  rw [h']

theorem stringWith_eq_some (h : (stringWith read r).1 = some bytes) :
    ∃ length r' r'', read r 2 = some (length, r') ∧
      read r' (ofLEBytes length) = some (bytes, r'') := by
  cases hlength : read r 2 with
  | none =>
    rw [stringWith_of_none hlength] at h
    cases h
  | some first =>
    cases hbytes : read first.2 (ofLEBytes first.1) with
    | none =>
      rw [stringWith_of_cut hlength hbytes] at h
      cases h
    | some second =>
      rw [stringWith_of_some hlength hbytes, Option.some.injEq] at h
      exact ⟨first.1, first.2, second.2, rfl, h ▸ hbytes⟩

end

end NetDataReader

end LiteNet.Wire
