import Mathlib.Data.Int.ModEq
import Mathlib.Tactic

/-! # Serial numbers: counters read modulo an even number

A counter that never wraps is transmitted modulo `2 * h`. The signed distance of
two transmitted values is recovered exactly while the true values are less than
half the modulus apart (`h` itself is allowed on the negative side).
-/

namespace LiteNet.Library

/-- Signed distance of two numbers modulo `2 * h`, in the range `[-h, h)`, with the
truncating remainder of C. -/
def serialDistance (h number expected : ℤ) : ℤ :=
  (number - expected + 2 * h + h).tmod (2 * h) - h

variable {h a b : ℤ}

theorem serialDistance_eq_emod (hlow : -(3 * h) ≤ a - b) :
    serialDistance h a b = (a - b + h) % (2 * h) - h := by
  have hp : 0 ≤ a - b + 2 * h + h := by omega
  rw [serialDistance, Int.tmod_eq_emod_of_nonneg hp,
    show a - b + 2 * h + h = a - b + h + 2 * h by ring, Int.add_emod_right]

theorem serialDistance_of_near (hl : -h ≤ a - b) (hu : a - b < h) :
    serialDistance h a b = a - b := by
  rw [serialDistance_eq_emod (by omega), Int.emod_eq_of_lt (by omega) (by omega)]
  ring

/-- When a number counts as newer, over the whole range of numbers. -/
theorem serialDistance_pos_iff (hh : 0 < h) :
    0 < serialDistance h a b ↔ -(3 * h) ≤ a - b ∧ h < (a - b + 3 * h) % (2 * h) := by
  have hsum : a - b + 2 * h + h = a - b + 3 * h := by ring
  rw [serialDistance, hsum]
  by_cases hlow : -(3 * h) ≤ a - b
  · rw [Int.tmod_eq_emod_of_nonneg (by omega)]
    omega
  · have hneg : (a - b + 3 * h).tmod (2 * h) ≤ 0 := by
      have hopp := Int.tmod_nonneg (2 * h) (show 0 ≤ -(a - b + 3 * h) by omega)
      rw [Int.neg_tmod] at hopp
      omega
    omega

theorem serialDistance_mod (hh : 0 < h) :
    serialDistance h (a % (2 * h)) (b % (2 * h)) = (a - b + h) % (2 * h) - h := by
  have ha := Int.emod_nonneg a (show 2 * h ≠ 0 by omega)
  have hb := Int.emod_lt_of_pos b (show 0 < 2 * h by omega)
  rw [serialDistance_eq_emod (by omega)]
  congr 1
  exact (((Int.mod_modEq a _).sub (Int.mod_modEq b _)).add_right h)

/-- The distance of two wrapped counters is the true one while they are within half the range. -/
theorem serialDistance_wrapped {h i j : ℕ} (hl : j ≤ i + h) (hu : i < j + h) :
    serialDistance h ((i % (2 * h) : ℕ) : ℤ) ((j % (2 * h) : ℕ) : ℤ) = (i : ℤ) - j := by
  have hh : (0 : ℤ) < h := by omega
  push_cast
  rw [serialDistance_mod hh, Int.emod_eq_of_lt (by omega) (by omega)]
  ring

theorem wrapped_succ (m i : ℕ) : (i % m + 1) % m = (i + 1) % m := by
  rw [Nat.mod_add_mod]

/-- Two counters less than one turn apart agree modulo `m` only if they agree. -/
theorem wrapped_injOn {m i j : ℕ} (hij : i ≤ j) (hj : j < i + m) (h : i % m = j % m) : i = j := by
  have hd : m ∣ j - i := (Nat.modEq_iff_dvd' hij).mp h
  have hz : j - i = 0 := Nat.eq_zero_of_dvd_of_lt hd (by omega)
  omega

/-- The unwrapped value of a counter that moved forward from `old` to `new` modulo `m`. -/
def unwrap (m : ℕ) (true_ old new : ℕ) : ℕ := true_ + (new + m - old) % m

theorem unwrap_wrapped {m i j : ℕ} (hij : i ≤ j) (hj : j < i + m) :
    unwrap m i (i % m) (j % m) = j := by
  have hi : i % m < m := Nat.mod_lt _ (by omega)
  have hd : i + (j % m + m - i % m) ≡ j [MOD m] := by
    have hs : i + (j % m + m - i % m) = (i - i % m) + (j % m + m) := by
      have := Nat.mod_le i m; omega
    rw [hs]
    have h0 : i - i % m ≡ 0 [MOD m] := (Nat.modEq_zero_iff_dvd).mpr (Nat.dvd_sub_mod i)
    have h1 : j % m + m ≡ j [MOD m] := by simp [Nat.ModEq]
    simpa using h0.add h1
  have hlt := Nat.mod_lt (j % m + m - i % m) (show 0 < m by omega)
  have he : i + (j % m + m - i % m) % m ≡ j [MOD m] :=
    ((Nat.ModEq.refl i).add (Nat.mod_modEq _ _)).trans hd
  unfold unwrap
  rcases le_total (i + (j % m + m - i % m) % m) j with hle | hle
  · exact wrapped_injOn hle (by omega) he
  · exact (wrapped_injOn hle (by omega) he.symm).symm

end LiteNet.Library
