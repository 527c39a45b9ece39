import Mathlib.Data.Set.Insert
import Mathlib.Data.List.Basic
import Mathlib.Order.Lattice
import Mathlib.Tactic
import LiteNet.Library.Transition

/-! # Selective repeat over unbounded packet numbers

One sender and one receiver with windows of `w` packets. Numbers never wrap and
the network keeps every acknowledgement snapshot for ever, so loss, duplication
and reordering are the choice of which packet or snapshot is used next.
-/

namespace LiteNet.Library.SelectiveRepeat
open Relation

/-- What the receiver reports: the start of its window and the packets it has of it. -/
structure Snapshot where
  start : ℕ
  bits : Set ℕ

structure State (α : Type*) where
  /-- packets submitted to the sender; the position is the number -/
  given : List α
  /-- packets the sender has numbered -/
  next : ℕ
  /-- first number of the send window -/
  base : ℕ
  /-- numbers whose packet the sender has let go of -/
  acked : Set ℕ
  /-- first number of the receive window -/
  windowStart : ℕ
  /-- first number the receiver does not have -/
  expected : ℕ
  /-- numbers the receiver has accepted -/
  got : Set ℕ
  /-- the same numbers in the order of acceptance -/
  order : List ℕ
  snapshots : Set Snapshot

variable {α : Type*} {w : ℕ}

def initial : State α where
  given := []
  next := 0
  base := 0
  acked := ∅
  windowStart := 0
  expected := 0
  got := ∅
  order := []
  snapshots := ∅

namespace State

def submitted (s : State α) (a : α) : State α := { s with given := s.given ++ [a] }

def numbered (s : State α) : State α := { s with next := s.next + 1 }

/-- The receiver takes number `i` and moves its window so that `i` lies in it. -/
def accepted (w : ℕ) (s : State α) (i e : ℕ) : State α :=
  { s with
    windowStart := max s.windowStart (i + 1 - w)
    got := insert i s.got
    order := s.order ++ [i]
    expected := e }

def snapshot (s : State α) : Snapshot := ⟨s.windowStart, {i ∈ s.got | s.windowStart ≤ i}⟩

def reported (s : State α) : State α := { s with snapshots := insert s.snapshot s.snapshots }

def released (s : State α) (i : ℕ) : State α :=
  { s with
    acked := insert i s.acked
    base := if i = s.base then s.base + 1 else s.base }

end State

/-- One action of the sender, the receiver or the network. -/
inductive Step (w : ℕ) : State α → State α → Prop
  | submit (s : State α) (a : α) : Step w s (s.submitted a)
  | number (s : State α) (hg : s.next < s.given.length) (hw : s.next < s.base + w) :
      Step w s s.numbered
  | accept (s : State α) (i e : ℕ) (hi : i < s.next) (hw : s.windowStart ≤ i) (hn : i ∉ s.got)
      (he : ∀ j < e, j ∈ insert i s.got) (he' : e ∉ insert i s.got) :
      Step w s (s.accepted w i e)
  | report (s : State α) : Step w s s.reported
  | release (s : State α) (r : Snapshot) (i : ℕ) (hr : r ∈ s.snapshots) (hi : i ∈ r.bits)
      (hb : s.base ≤ i) : Step w s (s.released i)

/-- The joint invariant of the two windows and of everything in flight. -/
structure Inv (w : ℕ) (s : State α) : Prop where
  next_le : s.next ≤ s.given.length
  base_le : s.base ≤ s.next
  next_lt : s.next ≤ s.base + w
  got_lt : ∀ i ∈ s.got, i < s.next
  got_window : ∀ i ∈ s.got, i < s.windowStart + w
  window_next : s.windowStart = 0 ∨ s.windowStart + w ≤ s.next
  expected_got : ∀ i < s.expected, i ∈ s.got
  expected_new : s.expected ∉ s.got
  window_le : s.windowStart ≤ s.expected
  order_nodup : s.order.Nodup
  mem_order : ∀ i, i ∈ s.order ↔ i ∈ s.got
  base_acked : ∀ i < s.base, i ∈ s.acked
  acked_got : ∀ i ∈ s.acked, i ∈ s.got
  snapshot_start : ∀ r ∈ s.snapshots, r.start ≤ s.windowStart
  snapshot_got : ∀ r ∈ s.snapshots, ∀ i ∈ r.bits, i ∈ s.got

namespace Inv

variable {s s' : State α}

/-- The send window never starts past the first number the receiver lacks. -/
theorem base_le_expected (h : Inv w s) : s.base ≤ s.expected := by
  by_contra hlt
  exact h.expected_new (h.acked_got _ (h.base_acked _ (by omega)))

/-- The receive window never starts past the send window. -/
theorem windowStart_le_base (h : Inv w s) : s.windowStart ≤ s.base := by
  have hn := h.next_lt
  rcases h.window_next with h0 | hw <;> omega

/-- The receiver lacks a number at or before the end of its window. -/
theorem expected_le (h : Inv w s) : s.expected ≤ s.windowStart + w := by
  by_contra hlt
  have := h.got_window _ (h.expected_got (s.windowStart + w) (by omega))
  omega

/-- Everything numbered lies less than a window past the first number the receiver lacks. -/
theorem next_le_expected (h : Inv w s) : s.next ≤ s.expected + w := by
  have := h.base_le_expected
  have := h.next_lt
  omega

theorem expected_le_next (h : Inv w s) : s.expected ≤ s.next := by
  rcases Nat.eq_zero_or_pos s.expected with h0 | hp
  · omega
  · have := h.got_lt _ (h.expected_got (s.expected - 1) (by omega))
    omega

theorem initial : Inv w (initial : State α) := by
  constructor <;> simp [SelectiveRepeat.initial]

theorem submit (h : Inv w s) (a : α) : Inv w (s.submitted a) :=
  { h with next_le := by have := h.next_le; simp only [State.submitted, List.length_append]; omega }

theorem number (h : Inv w s) (hg : s.next < s.given.length) (hw : s.next < s.base + w) :
    Inv w s.numbered :=
  { h with
    next_le := hg
    base_le := h.base_le.trans (Nat.le_succ _)
    next_lt := hw
    got_lt := fun i hi => (h.got_lt i hi).trans (Nat.lt_succ_self _)
    window_next := h.window_next.imp_right fun hw => hw.trans (Nat.le_succ _) }

theorem accept (h : Inv w s) {i e : ℕ} (hi : i < s.next) (hw : s.windowStart ≤ i)
    (hn : i ∉ s.got) (he : ∀ j < e, j ∈ insert i s.got) (he' : e ∉ insert i s.got) :
    Inv w (s.accepted w i e) := by
  have hexp : s.expected ≤ e := by
    by_contra hlt
    exact he' (Set.mem_insert_of_mem _ (h.expected_got e (by omega)))
  have hnext := h.next_le_expected
  have hwin := h.window_le
  have hwn := h.window_next
  exact
  { h with
    got_lt := by
      rintro j (rfl | hj)
      · exact hi
      · exact h.got_lt j hj
    got_window := by
      rintro j (rfl | hj)
      · simp only [State.accepted]; omega
      · have := h.got_window j hj; simp only [State.accepted]; omega
    window_next := by simp only [State.accepted]; omega
    expected_got := he
    expected_new := he'
    window_le := by simp only [State.accepted]; omega
    order_nodup := by
      refine List.Nodup.append h.order_nodup (List.nodup_singleton i) ?_
      simpa [h.mem_order] using hn
    mem_order := fun j => by simp [State.accepted, h.mem_order, or_comm]
    acked_got := fun j hj => Set.mem_insert_of_mem _ (h.acked_got j hj)
    snapshot_start := fun r hr => le_max_of_le_left (h.snapshot_start r hr)
    snapshot_got := fun r hr j hj => Set.mem_insert_of_mem _ (h.snapshot_got r hr j hj) }

theorem report (h : Inv w s) : Inv w s.reported :=
  { h with
    snapshot_start := by
      rintro r (rfl | hr)
      · exact le_rfl
      · exact h.snapshot_start r hr
    snapshot_got := by
      rintro r (rfl | hr)
      · exact fun i hi => hi.1
      · exact h.snapshot_got r hr }

theorem release (h : Inv w s) {r : Snapshot} {i : ℕ} (hr : r ∈ s.snapshots) (hi : i ∈ r.bits)
    (hb : s.base ≤ i) : Inv w (s.released i) := by
  have hgot := h.snapshot_got r hr i hi
  have hlt := h.got_lt i hgot
  have hbase := h.base_le
  have hnext := h.next_lt
  exact
  { h with
    base_le := by simp only [State.released]; split <;> omega
    next_lt := by simp only [State.released]; split <;> omega
    base_acked := by
      intro j hj
      simp only [State.released] at hj
      split at hj
      · rcases Nat.lt_succ_iff_lt_or_eq.mp hj with hj | hj
        · exact Set.mem_insert_of_mem _ (h.base_acked j hj)
        · exact Set.mem_insert_iff.mpr (.inl (by omega))
      · exact Set.mem_insert_of_mem _ (h.base_acked j hj)
    acked_got := by
      rintro j (rfl | hj)
      · exact hgot
      · exact h.acked_got j hj }

theorem step (h : Inv w s) (hs : Step w s s') : Inv w s' := by
  cases hs with
  | submit a => exact h.submit a
  | number hg hw => exact h.number hg hw
  | accept i e hi hw hn he he' => exact h.accept hi hw hn he he'
  | report => exact h.report
  | release r i hr hi hb => exact h.release hr hi hb

end Inv

theorem base_le_of_run {s s' : State α} (hr : ReflTransGen (Step w) s s') : s.base ≤ s'.base := by
  refine preserved_of_run (P := fun t => s.base ≤ t.base) (fun t t' h hs => ?_) le_rfl hr
  cases hs with
  | release r i hr hi hb =>
    simp only [State.released]
    split <;> omega
  | _ => exact h

/-- The invariant holds of every state of every run. -/
theorem inv_of_reachable {s : State α}
    (h : Reachable (fun t => t = (initial : State α)) (Step w) s) : Inv w s :=
  h.invariant (fun _ hs => hs ▸ Inv.initial) (fun _ _ hi hs => hi.step hs)

/-- A packet leaves the send window, or its slot, only after the receiver has accepted it. -/
theorem released_delivered {s : State α}
    (h : Reachable (fun t => t = (initial : State α)) (Step w) s) {i : ℕ}
    (hi : i < s.base ∨ i ∈ s.acked) : i ∈ s.order := by
  have hinv := inv_of_reachable h
  rw [hinv.mem_order]
  rcases hi with hb | ha
  · exact hinv.acked_got i (hinv.base_acked i hb)
  · exact hinv.acked_got i ha

end LiteNet.Library.SelectiveRepeat
