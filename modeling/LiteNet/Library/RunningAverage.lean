import Mathlib.Tactic.Linarith
import Mathlib.Tactic.Positivity

/-! # Running averages of integers

A sum, a count and their truncated quotient, updated by one sample at a time. A
restart keeps the average as the only sample. While the samples lie between zero and
a bound so does the average, and the sum is at most the count times the bound.
-/

namespace LiteNet.Library

structure RunningAverage where
  sum : ℤ
  count : ℤ
  average : ℤ
  deriving DecidableEq

namespace RunningAverage

def new : RunningAverage := ⟨0, 0, 0⟩

def add (a : RunningAverage) (sample : ℤ) : RunningAverage where
  sum := a.sum + sample
  count := a.count + 1
  average := (a.sum + sample).tdiv (a.count + 1)

def restart (a : RunningAverage) : RunningAverage where
  sum := a.average
  count := 1
  average := a.average

/-- The samples were between zero and `bound`. -/
structure Within (a : RunningAverage) (bound : ℤ) : Prop where
  count : 0 ≤ a.count
  sum : 0 ≤ a.sum
  sum_le : a.sum ≤ a.count * bound
  average : 0 ≤ a.average
  average_le : a.average ≤ bound

variable {a : RunningAverage} {bound sample : ℤ}

theorem new_within (h : 0 ≤ bound) : new.Within bound :=
  ⟨le_rfl, le_rfl, by simp [new], le_rfl, h⟩

theorem Within.mono {bound' : ℤ} (h : a.Within bound) (hle : bound ≤ bound') :
    a.Within bound' where
  count := h.count
  sum := h.sum
  sum_le := h.sum_le.trans (mul_le_mul_of_nonneg_left hle h.count)
  average := h.average
  average_le := h.average_le.trans hle

theorem Within.add (h : a.Within bound) (hpos : 0 ≤ sample) (hle : sample ≤ bound) :
    (a.add sample).Within bound := by
  have hcount : 0 < a.count + 1 := Int.lt_add_one_of_le h.count
  have hsum : 0 ≤ a.sum + sample := add_nonneg h.sum hpos
  have hsum_le : a.sum + sample ≤ (a.count + 1) * bound := by
    rw [add_mul, one_mul]
    exact add_le_add h.sum_le hle
  refine ⟨hcount.le, hsum, hsum_le, Int.tdiv_nonneg hsum hcount.le, ?_⟩
  change (a.sum + sample).tdiv (a.count + 1) ≤ bound
  rw [Int.tdiv_eq_ediv_of_nonneg hsum]
  exact Int.ediv_le_of_le_mul hcount (hsum_le.trans_eq (mul_comm _ _))

theorem Within.restart (h : a.Within bound) : a.restart.Within bound :=
  ⟨Int.one_nonneg, h.average, h.average_le.trans_eq (one_mul bound).symm, h.average, h.average_le⟩

end RunningAverage

end LiteNet.Library
