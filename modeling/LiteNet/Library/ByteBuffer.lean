import Mathlib.Data.List.Basic
import Mathlib.Tactic

/-! # Byte buffers with little-endian fields

Writes change bytes in place and never the length; a write past the end is
dropped. Fields that do not overlap are independent, and a field read where it
was written gives its value modulo its width.
-/

namespace LiteNet.Library

abbrev Bytes := List UInt8

/-- Overwrite the bytes from `pos` on. -/
def writeBytes (d : Bytes) (pos : ℕ) : Bytes → Bytes
  | [] => d
  | b :: bs => writeBytes (d.set pos b) (pos + 1) bs

def readBytes (d : Bytes) (pos n : ℕ) : Bytes := (d.drop pos).take n

/-- The `k` low bytes of `v`, low byte first. -/
def leBytes : ℕ → ℕ → Bytes
  | 0, _ => []
  | k + 1, v => UInt8.ofNat v :: leBytes k (v / 256)

/-- The number whose low-first bytes are given. -/
def ofLEBytes : Bytes → ℕ
  | [] => 0
  | b :: bs => b.toNat + 256 * ofLEBytes bs

def readLE (d : Bytes) (pos k : ℕ) : ℕ := ofLEBytes (readBytes d pos k)

def writeLE (d : Bytes) (pos k v : ℕ) : Bytes := writeBytes d pos (leBytes k v)

@[simp] theorem length_writeBytes (d : Bytes) (pos : ℕ) (bs : Bytes) :
    (writeBytes d pos bs).length = d.length := by
  induction bs generalizing d pos with
  | nil => rfl
  | cons b bs ih => rw [writeBytes, ih, List.length_set]

@[simp] theorem length_writeLE (d : Bytes) (pos k v : ℕ) :
    (writeLE d pos k v).length = d.length := length_writeBytes _ _ _

@[simp] theorem length_leBytes (k v : ℕ) : (leBytes k v).length = k := by
  induction k generalizing v with
  | zero => rfl
  | succ k ih => simp [leBytes, ih]

theorem length_readBytes (d : Bytes) (pos n : ℕ) (h : pos + n ≤ d.length) :
    (readBytes d pos n).length = n := by
  simp only [readBytes, List.length_take, List.length_drop]
  omega

theorem ofLEBytes_leBytes (k v : ℕ) : ofLEBytes (leBytes k v) = v % 256 ^ k := by
  induction k generalizing v with
  | zero => simp [leBytes, ofLEBytes, Nat.mod_one]
  | succ k ih =>
    rw [leBytes, ofLEBytes, ih, UInt8.toNat_ofNat', show (2 : ℕ) ^ 8 = 256 from rfl, pow_succ',
      Nat.mod_mul]

theorem ofLEBytes_lt (bs : Bytes) : ofLEBytes bs < 256 ^ bs.length := by
  induction bs with
  | nil => simp [ofLEBytes]
  | cons b bs ih =>
    have hb := b.toNat_lt
    simp only [ofLEBytes, List.length_cons, pow_succ']
    omega

/-- A written byte is the written one, every other byte is unchanged. -/
theorem getElem?_writeBytes (d : Bytes) (pos : ℕ) (bs : Bytes) (i : ℕ) :
    (writeBytes d pos bs)[i]? =
      if pos ≤ i ∧ i < pos + bs.length ∧ i < d.length then bs[i - pos]? else d[i]? := by
  induction bs generalizing d pos with
  | nil => simp [writeBytes]; omega
  | cons b bs ih =>
    rw [writeBytes, ih, List.length_set, List.length_cons, List.getElem?_set]
    by_cases hi : i = pos
    · subst hi
      by_cases hl : i < d.length
      · simp [hl]
      · simp [hl]
    · by_cases hc : pos ≤ i ∧ i < pos + (bs.length + 1) ∧ i < d.length
      · rw [if_pos (by omega), if_pos hc, show i - pos = i - (pos + 1) + 1 by omega,
          List.getElem?_cons_succ]
      · rw [if_neg (by omega), if_neg (Ne.symm hi), if_neg hc]

theorem getElem?_readBytes (d : Bytes) (pos n i : ℕ) :
    (readBytes d pos n)[i]? = if i < n then d[pos + i]? else none := by
  simp [readBytes, List.getElem?_take, List.getElem?_drop]

theorem readBytes_writeBytes_self (d : Bytes) (pos : ℕ) (bs : Bytes)
    (h : pos + bs.length ≤ d.length) : readBytes (writeBytes d pos bs) pos bs.length = bs := by
  apply List.ext_getElem?
  intro i
  rw [getElem?_readBytes, getElem?_writeBytes]
  by_cases hi : i < bs.length
  · rw [if_pos hi, if_pos (by omega), Nat.add_sub_cancel_left]
  · rw [if_neg hi, List.getElem?_eq_none (by omega)]

/-- Up to its end, a write appends to what stands before it. -/
theorem take_writeBytes (d : Bytes) (pos : ℕ) (bs : Bytes) (h : pos + bs.length ≤ d.length) :
    (writeBytes d pos bs).take (pos + bs.length) = d.take pos ++ bs := by
  apply List.ext_getElem?
  intro i
  have hlength : (d.take pos).length = pos := by
    rw [List.length_take]
    omega
  rw [List.getElem?_take, getElem?_writeBytes]
  by_cases hi : i < pos
  · rw [if_pos (by omega), if_neg (by omega), List.getElem?_append_left (by omega),
      List.getElem?_take, if_pos hi]
  · rw [List.getElem?_append_right (by omega), hlength]
    by_cases hb : i < pos + bs.length
    · rw [if_pos hb, if_pos (by omega)]
    · rw [if_neg hb, List.getElem?_eq_none (by omega)]

/-- A range that the write does not touch reads as before. -/
theorem readBytes_writeBytes_of_disjoint (d : Bytes) (pos : ℕ) (bs : Bytes) {q n : ℕ}
    (h : q + n ≤ pos ∨ pos + bs.length ≤ q) :
    readBytes (writeBytes d pos bs) q n = readBytes d q n := by
  apply List.ext_getElem?
  intro i
  rw [getElem?_readBytes, getElem?_readBytes, getElem?_writeBytes]
  by_cases hi : i < n
  · rw [if_pos hi, if_pos hi, if_neg (by omega)]
  · rw [if_neg hi, if_neg hi]

theorem readLE_writeLE_self (d : Bytes) {pos k v : ℕ} (h : pos + k ≤ d.length) :
    readLE (writeLE d pos k v) pos k = v % 256 ^ k := by
  have hr := readBytes_writeBytes_self d pos (leBytes k v) (by simpa using h)
  rw [length_leBytes] at hr
  rw [readLE, writeLE, hr, ofLEBytes_leBytes]

theorem readLE_writeBytes_of_disjoint (d : Bytes) (pos : ℕ) (bs : Bytes) {q n : ℕ}
    (h : q + n ≤ pos ∨ pos + bs.length ≤ q) :
    readLE (writeBytes d pos bs) q n = readLE d q n := by
  rw [readLE, readBytes_writeBytes_of_disjoint d pos bs h, readLE]

theorem readLE_lt (d : Bytes) (pos k : ℕ) : readLE d pos k < 256 ^ k := by
  refine (ofLEBytes_lt _).trans_le (Nat.pow_le_pow_right (by norm_num) ?_)
  simp [readBytes]

theorem readLE_leBytes_append (k v : ℕ) (rest : Bytes) :
    readLE (leBytes k v ++ rest) 0 k = v % 256 ^ k := by
  have htake : (leBytes k v ++ rest).take k = leBytes k v := by simp
  rw [readLE, readBytes, List.drop_zero, htake, ofLEBytes_leBytes]

theorem readLE_append_right (bs rest : Bytes) (pos k : ℕ) :
    readLE (bs ++ rest) (bs.length + pos) k = readLE rest pos k := by
  have hdrop : (bs ++ rest).drop (bs.length + pos) = rest.drop pos := by simp
  rw [readLE, readBytes, hdrop, readLE, readBytes]

theorem readLE_replicate_zero (n pos k : ℕ) : readLE (List.replicate n 0) pos k = 0 := by
  have hzero : ∀ m : ℕ, ofLEBytes (List.replicate m 0) = 0 := by
    intro m
    induction m with
    | zero => rfl
    | succ m ih => rw [List.replicate_succ, ofLEBytes, ih]; rfl
  rw [readLE, readBytes, List.drop_replicate, List.take_replicate, hzero]

theorem getD_writeBytes_of_disjoint (d : Bytes) (pos : ℕ) (bs : Bytes) {i : ℕ} {v : UInt8}
    (h : i < pos ∨ pos + bs.length ≤ i) : (writeBytes d pos bs).getD i v = d.getD i v := by
  rw [List.getD_eq_getElem?_getD, List.getD_eq_getElem?_getD, getElem?_writeBytes,
    if_neg (by omega)]

theorem readBytes_append_of_le (d e : Bytes) {pos n : ℕ} (h : pos + n ≤ d.length) :
    readBytes (d ++ e) pos n = readBytes d pos n := by
  rw [readBytes, readBytes, List.drop_append_of_le_length (by omega),
    List.take_append_of_le_length (by simp only [List.length_drop]; omega)]

def bitMask (k : ℕ) : UInt8 := 1 <<< UInt8.ofNat k

theorem forall_uint8 {P : UInt8 → Prop} (h : ∀ n : Fin 256, P (UInt8.ofNat n)) (b : UInt8) :
    P b := by
  have hb := h ⟨b.toNat, b.toNat_lt⟩
  simpa using hb

theorem or_and_distrib (a b c : UInt8) : (a ||| b) &&& c = (a &&& c) ||| (b &&& c) := by
  apply UInt8.toNat.inj
  simp only [UInt8.toNat_and, UInt8.toNat_or]
  exact Nat.and_or_distrib_right ..

theorem bitMask_testBit : ∀ k j : Fin 8, (bitMask k).toNat.testBit j = decide (k = j) := by
  decide +kernel

theorem not_bitMask_testBit :
    ∀ k j : Fin 8, (~~~bitMask k).toNat.testBit j = decide (k ≠ j) := by
  decide +kernel

theorem and_bitMask_ne_zero (b : UInt8) (k : Fin 8) :
    (b &&& bitMask k != 0) = b.toNat.testBit k := by
  revert k
  refine forall_uint8 (P := fun b => ∀ k : Fin 8, (b &&& bitMask k != 0) = b.toNat.testBit k) ?_ b
  decide +kernel

theorem or_bitMask (b : UInt8) (k j : Fin 8) :
    ((b ||| bitMask k) &&& bitMask j != 0) = ((b &&& bitMask j != 0) || decide (k = j)) := by
  simp only [and_bitMask_ne_zero, UInt8.toNat_or, Nat.testBit_or, bitMask_testBit]

theorem and_not_bitMask (b : UInt8) (k j : Fin 8) :
    ((b &&& ~~~bitMask k) &&& bitMask j != 0) = ((b &&& bitMask j != 0) && decide (k ≠ j)) := by
  simp only [and_bitMask_ne_zero, UInt8.toNat_and, Nat.testBit_and, not_bitMask_testBit]

end LiteNet.Library
