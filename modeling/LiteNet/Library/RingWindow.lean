import Mathlib.Data.Nat.ModEq
import LiteNet.Library.SerialNumber

/-! # Rings of slots holding a window of an unbounded sequence

A ring of `w` slots keeps the values of `w` consecutive indices, index `i` in
slot `i % w`. Writing an index of the window, and moving the window by one,
are the only operations needed.
-/

namespace LiteNet.Library

variable {α : Type*} {w : ℕ} [NeZero w]

/-- The slot of an index. -/
def slot (w : ℕ) [NeZero w] (i : ℕ) : Fin w := ⟨i % w, Nat.mod_lt _ (NeZero.pos w)⟩

@[simp] theorem slot_val (i : ℕ) : (slot w i : ℕ) = i % w := rfl

theorem slot_add_width (i : ℕ) : slot w (i + w) = slot w i := by
  ext
  simp

theorem slot_mod {m : ℕ} (hm : w ∣ m) (i : ℕ) : slot w (i % m) = slot w i := by
  ext
  exact Nat.mod_mod_of_dvd i hm

theorem slot_injOn {b i j : ℕ} (hi : b ≤ i) (hi' : i < b + w) (hj : b ≤ j)
    (hj' : j < b + w) (h : slot w i = slot w j) : i = j := by
  have hv : i % w = j % w := congrArg Fin.val h
  rcases le_total i j with hij | hij
  · exact wrapped_injOn hij (by omega) hv
  · exact (wrapped_injOn hij (by omega) hv.symm).symm

/-- Every slot is the slot of an index of the window. -/
theorem exists_slot_eq (base : ℕ) (k : Fin w) : ∃ i, base ≤ i ∧ i < base + w ∧ slot w i = k := by
  have hw := NeZero.pos w
  have hb := Nat.mod_lt base hw
  have hk := k.isLt
  refine ⟨base + (k.val + w - base % w) % w, by omega,
    by have := Nat.mod_lt (k.val + w - base % w) hw; omega, ?_⟩
  ext
  have hs : base + (k.val + w - base % w) = (base - base % w) + (k.val + w) := by
    have := Nat.mod_le base w
    omega
  rw [slot_val, Nat.add_mod_mod, hs, Nat.add_mod,
    Nat.mod_eq_zero_of_dvd (Nat.dvd_sub_mod base), Nat.zero_add, Nat.mod_mod, Nat.add_mod_right,
    Nat.mod_eq_of_lt hk]

/-- Every index of the window starting at `base` is related to the value in its slot. -/
def Holds (ring : Fin w → α) (base : ℕ) (R : ℕ → α → Prop) : Prop :=
  ∀ i, base ≤ i → i < base + w → R i (ring (slot w i))

namespace Holds

variable {ring : Fin w → α} {base i : ℕ} {R R' : ℕ → α → Prop}

theorem mono (h : Holds ring base R)
    (hR : ∀ i v, base ≤ i → i < base + w → R i v → R' i v) : Holds ring base R' :=
  fun i hi hi' => hR i _ hi hi' (h i hi hi')

/-- Writing the slot of one window index concerns that index only. -/
theorem update (h : Holds ring base R) (hi : base ≤ i) (hi' : i < base + w) {v : α}
    (hv : R' i v) (hR : ∀ j u, j ≠ i → R j u → R' j u) :
    Holds (Function.update ring (slot w i) v) base R' := by
  intro j hj hj'
  by_cases hji : j = i
  · rw [hji, Function.update_self]
    exact hv
  · have hs : slot w j ≠ slot w i := fun he => hji (slot_injOn hj hj' hi hi' he)
    rw [Function.update_of_ne hs]
    exact hR j _ hji (h j hj hj')

/-- The window moves by one when the slot of its first index suits the index that enters. -/
theorem slide (h : Holds ring base R) (hnew : R (base + w) (ring (slot w base))) :
    Holds ring (base + 1) R := by
  intro j hj hj'
  rcases Nat.lt_or_ge j (base + w) with hlt | hge
  · exact h j (by omega) hlt
  · have hje : j = base + w := by omega
    rw [hje, slot_add_width]
    exact hnew

/-- Overwriting the first slot for the index that enters moves the window by one. -/
theorem slide_update (h : Holds ring base R) {v : α} (hv : R (base + w) v) :
    Holds (Function.update ring (slot w base) v) (base + 1) R := by
  have hw := NeZero.pos w
  intro j hj hj'
  rcases Nat.lt_or_ge j (base + w) with hlt | hge
  · have hs : slot w j ≠ slot w base := fun he => by
      have := slot_injOn (show base ≤ j by omega) hlt le_rfl (by omega) he
      omega
    rw [Function.update_of_ne hs]
    exact h j (by omega) hlt
  · have hje : j = base + w := by omega
    rw [hje, slot_add_width, Function.update_self]
    exact hv

end Holds

end LiteNet.Library
