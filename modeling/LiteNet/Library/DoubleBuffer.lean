import Mathlib.Data.List.Infix
import Mathlib.Tactic.Common

/-! # A queue of two buffers

Producers append to one buffer while a consumer goes through the other. When it is
through, it empties its buffer and later swaps the two. Nothing that was put in is
taken twice, left out or taken out of turn.
-/

namespace LiteNet.Library

/-- The two buffers, and how far the consumer is in its own. -/
structure DoubleBuffer (α : Type*) where
  produced : List α
  consumed : List α
  position : ℕ

namespace DoubleBuffer

variable {α : Type*} {b : DoubleBuffer α} {log taken : List α}

def empty : DoubleBuffer α := ⟨[], [], 0⟩

def put (b : DoubleBuffer α) (new : List α) : DoubleBuffer α :=
  { b with produced := b.produced ++ new }

def swap (b : DoubleBuffer α) : DoubleBuffer α := ⟨b.consumed, b.produced, 0⟩

def current (b : DoubleBuffer α) : Option α := b.consumed[b.position]?

def advance (b : DoubleBuffer α) : DoubleBuffer α := { b with position := b.position + 1 }

def clear (b : DoubleBuffer α) : DoubleBuffer α := { b with consumed := [], position := 0 }

/-- What the consumer has not passed yet. -/
def left (b : DoubleBuffer α) : List α := b.consumed.drop b.position

/-- What was put in is what was taken, what the consumer has before it, and what waits. -/
def Holds (b : DoubleBuffer α) (log taken : List α) : Prop := log = taken ++ b.left ++ b.produced

theorem holds_empty : (empty : DoubleBuffer α).Holds [] [] := rfl

theorem Holds.taken_isPrefix (h : b.Holds log taken) : taken <+: log := by
  rw [Holds, List.append_assoc] at h
  exact ⟨_, h.symm⟩

theorem Holds.put (h : b.Holds log taken) (new : List α) :
    (b.put new).Holds (log ++ new) taken := by
  rw [Holds] at h ⊢
  rw [h, List.append_assoc _ b.produced]
  rfl

/-- The consumer swaps when it has emptied its buffer. -/
theorem Holds.swap (h : b.Holds log taken) (hempty : b.consumed = []) :
    b.swap.Holds log taken ∧ taken ++ b.swap.left = log := by
  rw [Holds, left, hempty, List.drop_nil, List.append_nil] at h
  rw [Holds, left, DoubleBuffer.swap, hempty, List.append_nil]
  exact ⟨h, h.symm⟩

theorem left_of_current {a : α} (h : b.current = some a) : b.left = a :: b.advance.left :=
  List.drop_eq_getElem?_toList_append .. |>.trans (by rw [current] at h; rw [h]; rfl)

theorem left_of_none (h : b.current = none) : b.left = [] :=
  List.drop_eq_nil_of_le (List.getElem?_eq_none_iff.mp h)

theorem mem_of_current {a : α} (h : b.current = some a) (hb : b.Holds log taken) : a ∈ log := by
  rw [hb, left_of_current h]
  simp

theorem Holds.advance {a : α} (h : b.Holds log taken) (ha : b.current = some a) :
    b.advance.Holds log (taken ++ [a]) := by
  rw [Holds] at h ⊢
  rw [h, left_of_current ha]
  simp [DoubleBuffer.advance]

/-- Nothing is dropped when the consumer is through. -/
theorem Holds.clear (h : b.Holds log taken) (hnone : b.current = none) :
    b.clear.Holds log taken := by
  rw [Holds, left_of_none hnone] at h
  exact h

end DoubleBuffer

end LiteNet.Library
