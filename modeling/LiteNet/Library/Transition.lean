import Mathlib.Algebra.GroupWithZero.Nat
import Mathlib.Data.List.Infix
import Mathlib.Logic.Relation
import Mathlib.Tactic.Common

/-! # Runs, invariants and forward simulation of transition systems

A system is a set of initial states and a step relation. Invariants are proved
on initial states and along one step; a forward simulation matches one concrete
step with any finite number of abstract steps.
-/

namespace LiteNet.Library
open Relation

variable {σ τ : Type*} {init : σ → Prop} {step : σ → σ → Prop}

/-- The states reached by a finite run from an initial state. -/
def Reachable (init : σ → Prop) (step : σ → σ → Prop) (s : σ) : Prop :=
  ∃ s₀, init s₀ ∧ ReflTransGen step s₀ s

theorem Reachable.initial {s : σ} (h : init s) : Reachable init step s :=
  ⟨s, h, .refl⟩

theorem Reachable.tail {s s' : σ} (h : Reachable init step s) (hs : step s s') :
    Reachable init step s' := by
  obtain ⟨s₀, hi, hr⟩ := h
  exact ⟨s₀, hi, hr.tail hs⟩

theorem Reachable.trans {s s' : σ} (h : Reachable init step s) (hs : ReflTransGen step s s') :
    Reachable init step s' := by
  obtain ⟨s₀, hi, hr⟩ := h
  exact ⟨s₀, hi, hr.trans hs⟩

theorem Reachable.mono {step' : σ → σ → Prop} (hstep : ∀ s s', step s s' → step' s s') {s : σ}
    (h : Reachable init step s) : Reachable init step' s := by
  obtain ⟨s₀, hi, hr⟩ := h
  exact ⟨s₀, hi, ReflTransGen.mono hstep _ _ hr⟩

theorem Reachable.of_init {init' : σ → Prop} (hinit : ∀ s, init s → init' s) {s : σ}
    (h : Reachable init step s) : Reachable init' step s := by
  obtain ⟨s₀, hi, hr⟩ := h
  exact ⟨s₀, hinit s₀ hi, hr⟩

theorem preserved_of_run {P : σ → Prop} (hstep : ∀ s s', P s → step s s' → P s')
    {s s' : σ} (h : P s) (hr : ReflTransGen step s s') : P s' := by
  induction hr with
  | refl => exact h
  | tail _ hs ih => exact hstep _ _ ih hs

/-- A property of the initial states that one step preserves holds of every reachable state. -/
theorem Reachable.invariant {P : σ → Prop} (hinit : ∀ s, init s → P s)
    (hstep : ∀ s s', P s → step s s' → P s') {s : σ} (h : Reachable init step s) : P s := by
  obtain ⟨s₀, hi, hr⟩ := h
  exact preserved_of_run hstep (hinit s₀ hi) hr

/-- Every reachable concrete state is related to a reachable abstract one when the relation
holds initially and each concrete step is matched by a finite abstract run. -/
theorem Reachable.simulates {init' : τ → Prop} {step' : τ → τ → Prop} {R : σ → τ → Prop}
    (hinit : ∀ s, init s → ∃ t, init' t ∧ R s t)
    (hstep : ∀ s s' t, Reachable init' step' t → R s t → step s s' →
      ∃ t', ReflTransGen step' t t' ∧ R s' t')
    {s : σ} (h : Reachable init step s) : ∃ t, Reachable init' step' t ∧ R s t := by
  refine h.invariant (P := fun s => ∃ t, Reachable init' step' t ∧ R s t)
    (fun s hs => ?_) (fun s s' hs hss => ?_)
  · obtain ⟨t, ht, hR⟩ := hinit s hs
    exact ⟨t, .initial ht, hR⟩
  · obtain ⟨t, ht, hR⟩ := hs
    obtain ⟨t', hr, hR'⟩ := hstep s s' t ht hR hss
    exact ⟨t', ht.trans hr, hR'⟩

/-- An action that counts lowers the rank by one and no other action raises it, so a run with more
of them than the rank it starts from has left `P` for `Q`. `P` knows what the rest of the run
costs. -/
theorem spent_of_run {α : Type*} {act : σ → α → σ} {P : ℕ → σ → Prop} {Q : σ → Prop}
    (rank : σ → ℕ) (counts : α → Bool) (cost : α → ℕ) {allowed : σ → α → Prop}
    (hP : ∀ n s a, P (cost a + n) s → allowed s a → Q (act s a) ∨
      P n (act s a) ∧ rank (act s a) + (counts a).toNat ≤ rank s)
    (hQ : ∀ s a, Q s → allowed s a → Q (act s a)) {s : σ} {actions : List α}
    (h : ∀ before a, before ++ [a] <+: actions → allowed (before.foldl act s) a)
    (hs : Q s ∨ P (actions.map cost).sum s ∧ rank s < actions.countP counts) :
    Q (actions.foldl act s) := by
  induction actions generalizing s with
  | nil => exact hs.resolve_right (fun hp => absurd hp.2 (Nat.not_lt_zero _))
  | cons a actions ih =>
    have ha : allowed s a := h [] a (List.prefix_append [a] actions)
    refine ih (fun before b hb => h (a :: before) b ?_) ?_
    · rw [List.cons_append]
      exact (List.prefix_cons_inj a).mpr hb
    · rcases hs with hs | ⟨hs, hrank⟩
      · exact .inl (hQ s a hs ha)
      · rw [List.map_cons, List.sum_cons] at hs
        rcases hP _ s a hs ha with hq | ⟨hp, hlower⟩
        · exact .inl hq
        · refine .inr ⟨hp, ?_⟩
          rw [List.countP_cons] at hrank
          cases hc : counts a <;> rw [hc] at hrank hlower
          · simp only [Bool.false_eq_true, if_false, Nat.add_zero, Bool.toNat_false] at hrank hlower
            omega
          · simp only [if_true, Bool.toNat_true] at hrank hlower
            omega

/-- What holds at every operation of a history holds at its last operation and before. -/
theorem forall_prefix_concat {P : List σ → σ → Prop} (ops : List σ) (last : σ) :
    (∀ before op, before ++ [op] <+: ops ++ [last] → P before op) ↔
      (∀ before op, before ++ [op] <+: ops → P before op) ∧ P ops last := by
  constructor
  · intro h
    exact ⟨fun before op hb => h before op (hb.trans (List.prefix_append _ _)),
      h ops last List.prefix_rfl⟩
  · rintro ⟨hops, hlast⟩ before op hb
    rcases List.prefix_concat_iff.mp hb with heq | hb
    · obtain ⟨rfl, hop⟩ := List.append_inj' heq rfl
      rw [List.cons.injEq] at hop
      exact hop.1 ▸ hlast
    · exact hops before op hb

/-- What holds of every element and what comes before it holds pairwise. -/
theorem pairwise_of_prefix {R : σ → σ → Prop} {l : List σ}
    (h : ∀ before a, before ++ [a] <+: l → ∀ b ∈ before, R b a) : l.Pairwise R := by
  induction l using List.reverseRecOn with
  | nil => exact .nil
  | append_singleton l a ih =>
    obtain ⟨hbefore, hlast⟩ := (forall_prefix_concat l a).mp h
    refine List.pairwise_append.mpr ⟨ih hbefore, List.pairwise_singleton R a, ?_⟩
    intro b hb c hc
    rw [List.mem_singleton.mp hc]
    exact hlast b hb

/-- What comes before an element that a filter lets through. -/
theorem prefix_filterMap_concat {β : Type*} {f : σ → Option β} {l : List σ} {before : List β} {b : β}
    (h : before ++ [b] <+: l.filterMap f) :
    ∃ before' a, before' ++ [a] <+: l ∧ f a = some b ∧ before'.filterMap f = before := by
  obtain ⟨l', hprefix, heq⟩ := List.prefix_filterMap_iff.mp h
  obtain ⟨l₁, l₂, rfl, hbefore, hlast⟩ := List.filterMap_eq_append_iff.mp heq.symm
  obtain ⟨l₃, a, l₄, rfl, hnone, ha, -⟩ := List.filterMap_eq_cons_iff.mp hlast
  refine ⟨l₁ ++ l₃, a, (List.prefix_append _ l₄).trans ?_, ha, ?_⟩
  · simpa using hprefix
  · rw [List.filterMap_append, hbefore, List.filterMap_eq_nil_iff.mpr hnone, List.append_nil]

end LiteNet.Library
