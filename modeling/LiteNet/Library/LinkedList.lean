import Mathlib.Data.List.Nodup
import Mathlib.Logic.Function.Basic
import Mathlib.Tactic

/-! # Linked lists

The links are functions on the elements, so an element that was taken out keeps
whatever its links were last set to.
-/

namespace LiteNet.Library

variable {α : Type*} {next prev : α → Option α} {head : Option α} {l : List α} {a b : α}

/-- From `head` along `next` stand the elements of the list. -/
def Linked (next : α → Option α) : Option α → List α → Prop
  | head, [] => head = none
  | head, a :: l => head = some a ∧ Linked next (next a) l

namespace Linked

/-- A link that no element of the list has may change. -/
theorem update [DecidableEq α] (h : Linked next head l) (ha : a ∉ l) (link : Option α) :
    Linked (Function.update next a link) head l := by
  induction l generalizing head with
  | nil => exact h
  | cons c l ih =>
    rw [List.mem_cons, not_or] at ha
    refine ⟨h.1, ?_⟩
    rw [Function.update_of_ne (Ne.symm ha.1)]
    exact ih h.2 ha.2

theorem push [DecidableEq α] (h : Linked next head l) (ha : a ∉ l) :
    Linked (Function.update next a head) (some a) (a :: l) := by
  refine ⟨rfl, ?_⟩
  rw [Function.update_self]
  exact h.update ha head

end Linked

/-- From `head` along `next` stand the elements of `l`, once each, and `prev` leads back. -/
structure DoublyLinked (next prev : α → Option α) (head : Option α) (l : List α) : Prop where
  head_eq : head = l.head?
  next_eq : ∀ l₁ a l₂, l = l₁ ++ a :: l₂ → next a = l₂.head?
  prev_eq : ∀ l₁ a l₂, l = l₁ ++ a :: l₂ → prev a = l₁.getLast?
  nodup : l.Nodup

namespace DoublyLinked

theorem nil : DoublyLinked next prev none [] :=
  ⟨rfl, by simp, by simp, List.nodup_nil⟩

theorem next_mem (h : DoublyLinked next prev head l) (ha : a ∈ l) (hb : next a = some b) : b ∈ l := by
  obtain ⟨l₁, l₂, rfl⟩ := List.append_of_mem ha
  rw [h.next_eq l₁ a l₂ rfl] at hb
  simp [List.mem_of_mem_head? hb]

theorem prev_mem (h : DoublyLinked next prev head l) (ha : a ∈ l) (hb : prev a = some b) : b ∈ l := by
  obtain ⟨l₁, l₂, rfl⟩ := List.append_of_mem ha
  rw [h.prev_eq l₁ a l₂ rfl] at hb
  simp [List.mem_of_getLast? hb]

theorem nodup_split {l₁ l₂ : List α} (h : (l₁ ++ a :: l₂).Nodup) :
    a ∉ l₁ ∧ a ∉ l₂ ∧ ∀ c ∈ l₁, c ∉ l₂ := by
  rw [List.nodup_append, List.nodup_cons] at h
  obtain ⟨-, ⟨ha, -⟩, hdisjoint⟩ := h
  refine ⟨fun hm => hdisjoint a hm a List.mem_cons_self rfl, ha, fun c hc hm => ?_⟩
  exact hdisjoint c hc c (List.mem_cons_of_mem a hm) rfl

/-- An element of the list without `a` stands behind `a` or before it. -/
theorem split_erase {l₁ l₂ m₁ m₂ : List α} {c : α} (h : l₁ ++ l₂ = m₁ ++ c :: m₂) :
    (∃ l, m₁ = l₁ ++ l ∧ l₂ = l ++ c :: m₂) ∨ ∃ l, l₁ = m₁ ++ c :: l ∧ m₂ = l ++ l₂ := by
  rcases List.append_eq_append_iff.mp h with ⟨l, hm, hl⟩ | ⟨l, hl, hm⟩
  · exact .inl ⟨l, hm, hl⟩
  · rcases List.cons_eq_append_iff.mp hm with ⟨rfl, hl₂⟩ | ⟨l, rfl, hm₂⟩
    · exact .inl ⟨[], by simpa using hl.symm, hl₂⟩
    · exact .inr ⟨l, hl, hm₂⟩

section Links

variable [DecidableEq α]

/-- The links once `a` is put in front. -/
def pushNext (next : α → Option α) (head : Option α) (a : α) : α → Option α :=
  match head with
  | none => next
  | some b => Function.update next a (some b)

def pushPrev (prev : α → Option α) (head : Option α) (a : α) : α → Option α :=
  match head with
  | none => prev
  | some b => Function.update prev b (some a)

theorem pushNext_of_ne {c : α} (hc : c ≠ a) : pushNext next head a c = next c := by
  cases head with
  | none => rfl
  | some b => exact Function.update_of_ne hc _ _

/-- A new element that has no links is put in front. -/
theorem push (h : DoublyLinked next prev head l) (ha : a ∉ l) (hnext : next a = none)
    (hprev : prev a = none) :
    DoublyLinked (pushNext next head a) (pushPrev prev head a) (some a) (a :: l) where
  head_eq := rfl
  next_eq := by
    intro l₁ c l₂ hl
    have hhead := h.head_eq
    rcases List.cons_eq_append_iff.mp hl with ⟨rfl, hc⟩ | ⟨l₁, rfl, rfl⟩
    · cases hc
      cases head with
      | none => rw [pushNext, hnext, hhead]
      | some b => rw [pushNext, Function.update_self, hhead]
    · have hne : c ≠ a := by
        rintro rfl
        simp at ha
      rw [pushNext_of_ne hne, h.next_eq l₁ c l₂ rfl]
  prev_eq := by
    intro l₁ c l₂ hl
    have hhead := h.head_eq
    rcases List.cons_eq_append_iff.mp hl with ⟨rfl, hc⟩ | ⟨l₁, rfl, rfl⟩
    · cases hc
      cases head with
      | none => rw [pushPrev, hprev, List.getLast?_nil]
      | some b =>
        have hne : a ≠ b := by
          rintro rfl
          exact ha (List.mem_of_mem_head? hhead.symm)
        rw [pushPrev, Function.update_of_ne hne, hprev, List.getLast?_nil]
    · have hback := h.prev_eq l₁ c l₂ rfl
      cases l₁ with
      | nil =>
        rw [List.nil_append, List.head?_cons] at hhead
        rw [hhead, pushPrev, Function.update_self]
        rfl
      | cons d l₁ =>
        rw [List.cons_append, List.head?_cons] at hhead
        have hne : c ≠ d := by
          rintro rfl
          have hnodup := h.nodup
          simp at hnodup
        rw [hhead, pushPrev, Function.update_of_ne hne, hback]
        simp
  nodup := List.nodup_cons.mpr ⟨ha, h.nodup⟩

/-- The links once `a` is taken out; its own forward link stays. -/
def eraseNext (next prev : α → Option α) (a : α) : α → Option α :=
  match prev a with
  | none => next
  | some b => Function.update next b (next a)

def erasePrev (next prev : α → Option α) (a : α) : α → Option α :=
  Function.update
    (match next a with
    | none => prev
    | some b => Function.update prev b (prev a)) a none

theorem pushPrev_of_not_mem {c : α} (h : DoublyLinked next prev head l) (hc : c ∉ l) :
    pushPrev prev head a c = prev c := by
  have hhead := h.head_eq
  cases head with
  | none => rfl
  | some b =>
    refine Function.update_of_ne ?_ _ _
    rintro rfl
    exact hc (List.mem_of_mem_head? hhead.symm)

theorem eraseNext_of_not_mem {c : α} (h : DoublyLinked next prev head l) (ha : a ∈ l)
    (hc : c ∉ l) : eraseNext next prev a c = next c := by
  rw [eraseNext]
  cases hb : prev a with
  | none => rfl
  | some b =>
    refine Function.update_of_ne ?_ _ _
    rintro rfl
    exact hc (h.prev_mem ha hb)

theorem erasePrev_of_not_mem {c : α} (h : DoublyLinked next prev head l) (ha : a ∈ l)
    (hc : c ∉ l) : erasePrev next prev a c = prev c := by
  have hne : c ≠ a := fun he => hc (he ▸ ha)
  rw [erasePrev, Function.update_of_ne hne]
  cases hb : next a with
  | none => rfl
  | some b =>
    refine Function.update_of_ne ?_ _ _
    rintro rfl
    exact hc (h.next_mem ha hb)

theorem eraseNext_eq {l₁ l₂ m₁ m₂ : List α} {c : α}
    (h : DoublyLinked next prev head (l₁ ++ a :: l₂)) (hs : l₁ ++ l₂ = m₁ ++ c :: m₂) :
    eraseNext next prev a c = m₂.head? := by
  have hprev := h.prev_eq l₁ a l₂ rfl
  have hnodup := h.nodup
  rcases split_erase hs with ⟨l, rfl, rfl⟩ | ⟨l, rfl, rfl⟩
  · have hnext := h.next_eq (l₁ ++ a :: l) c m₂ (by simp)
    rw [← hnext, eraseNext, hprev]
    cases hlast : l₁.getLast? with
    | none => rfl
    | some b =>
      have hb := List.mem_of_getLast? hlast
      have hne : c ≠ b := by
        rintro rfl
        exact (nodup_split hnodup).2.2 c hb (by simp)
      exact Function.update_of_ne hne _ _
  · have hnext := h.next_eq m₁ c (l ++ a :: l₂) (by simp)
    have hmiddle := h.next_eq (m₁ ++ c :: l) a l₂ rfl
    rw [eraseNext, hprev]
    cases l with
    | nil =>
      rw [List.getLast?_concat, hmiddle]
      exact Function.update_self ..
    | cons d l =>
      cases hlast : (m₁ ++ c :: d :: l).getLast? with
      | none => simp at hlast
      | some b =>
        have hb : b ∈ d :: l := by
          rw [List.getLast?_append, List.getLast?_cons_cons] at hlast
          apply List.mem_of_getLast?
          cases hd : (d :: l).getLast? with
          | none => simp at hd
          | some b' => simpa [hd] using hlast
        have hne : c ≠ b := by
          rintro rfl
          rw [List.append_assoc, List.cons_append] at hnodup
          exact (nodup_split hnodup).2.1 (List.mem_append_left _ hb)
        exact (Function.update_of_ne hne _ _).trans hnext

theorem erasePrev_eq {l₁ l₂ m₁ m₂ : List α} {c : α}
    (h : DoublyLinked next prev head (l₁ ++ a :: l₂)) (hs : l₁ ++ l₂ = m₁ ++ c :: m₂) :
    erasePrev next prev a c = m₁.getLast? := by
  have hprev := h.prev_eq l₁ a l₂ rfl
  have hnext := h.next_eq l₁ a l₂ rfl
  have hnodup := h.nodup
  obtain ⟨hbefore, hafter, hdisjoint⟩ := nodup_split hnodup
  have hne : c ≠ a := by
    have hc : c ∈ l₁ ++ l₂ := by simp [hs]
    rintro rfl
    exact (List.mem_append.mp hc).elim hbefore hafter
  rw [erasePrev, Function.update_of_ne hne, hnext]
  rcases split_erase hs with ⟨l, rfl, rfl⟩ | ⟨l, rfl, rfl⟩
  · have hback := h.prev_eq (l₁ ++ a :: l) c m₂ (by simp)
    cases l with
    | nil =>
      simp only [List.nil_append, List.head?_cons, List.append_nil, hprev]
      exact Function.update_self ..
    | cons d l =>
      have hcd : c ≠ d := by
        rintro rfl
        simp [List.nodup_append] at hnodup
      simp only [List.cons_append, List.head?_cons]
      rw [Function.update_of_ne hcd, hback]
      simp [List.getLast?_append]
  · have hback := h.prev_eq m₁ c (l ++ a :: l₂) (by simp)
    cases hhead : l₂.head? with
    | none => exact hback
    | some b =>
      have hb := List.mem_of_mem_head? hhead
      have hcb : c ≠ b := by
        rintro rfl
        exact hdisjoint c (by simp) hb
      dsimp only
      rw [Function.update_of_ne hcb, hback]

theorem erase (h : DoublyLinked next prev head l) (ha : a ∈ l) :
    DoublyLinked (eraseNext next prev a) (erasePrev next prev a)
      (if head = some a then next a else head) (l.erase a) := by
  obtain ⟨l₁, l₂, rfl⟩ := List.append_of_mem ha
  have hnodup := h.nodup
  have hnot : a ∉ l₁ := (nodup_split hnodup).1
  have herase : (l₁ ++ a :: l₂).erase a = l₁ ++ l₂ := by
    rw [List.erase_append_right _ hnot, List.erase_cons_head]
  rw [herase]
  refine ⟨?_, fun _ _ _ hs => eraseNext_eq h hs, fun _ _ _ hs => erasePrev_eq h hs,
    herase ▸ hnodup.erase a⟩
  have hhead := h.head_eq
  cases l₁ with
  | nil =>
    have hfirst : head = some a := hhead
    rw [if_pos hfirst, h.next_eq [] a l₂ rfl, List.nil_append]
  | cons b l₁ =>
    have hne : ¬ head = some a := by
      rw [hhead]
      simp only [List.cons_append, List.head?_cons, Option.some.injEq]
      rintro rfl
      simp at hnot
    rw [if_neg hne, hhead]
    rfl

end Links

end DoublyLinked

end LiteNet.Library
