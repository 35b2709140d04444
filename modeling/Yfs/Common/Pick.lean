import Mathlib.Data.List.Forall2
import Mathlib.Data.List.Perm.Basic

/-!
# Taking a member out of a list

A bag kept as a list, from which a step takes the member at an index: it
is the member and the rest, in some order.
-/

namespace Common

variable {α : Type*}

/-- An element, and the rest of the list without it. -/
theorem perm_eraseIdx {l : List α} {k : ℕ} {a : α} (h : l[k]? = some a) :
    l.Perm (a :: l.eraseIdx k) := by
  obtain ⟨hk, rfl⟩ := List.getElem?_eq_some_iff.1 h
  exact (List.getElem_cons_eraseIdx_perm hk).symm

theorem mem_of_pick {l r : List α} {a b : α} (h : l.Perm (a :: r)) : b ∈ l ↔ b = a ∨ b ∈ r := by
  rw [h.mem_iff, List.mem_cons]

/-- The members of a list that are neither what stood at an index nor what
is put there. -/
theorem mem_set_of_ne {l : List α} {k : ℕ} {a a' b : α} (h : l[k]? = some a) (hb : b ≠ a)
    (hb' : b ≠ a') : b ∈ l.set k a' ↔ b ∈ l := by
  obtain ⟨hk, rfl⟩ := List.getElem?_eq_some_iff.1 h
  rw [(List.set_perm_cons_eraseIdx hk a').mem_iff, List.mem_cons, or_iff_right hb',
    (perm_eraseIdx h).mem_iff, List.mem_cons, or_iff_right hb]

theorem mem_set_self {l : List α} {k : ℕ} {a a' : α} (h : l[k]? = some a) : a' ∈ l.set k a' := by
  obtain ⟨hk, rfl⟩ := List.getElem?_eq_some_iff.1 h
  exact (List.set_perm_cons_eraseIdx hk a').mem_iff.2 List.mem_cons_self

/-- Two lists that go together, without what stands at an index. -/
theorem forall₂_eraseIdx {β : Type*} {R : α → β → Prop} {l : List α} {m : List β}
    (h : List.Forall₂ R l m) (k : ℕ) : List.Forall₂ R (l.eraseIdx k) (m.eraseIdx k) := by
  induction h generalizing k with
  | nil => exact .nil
  | cons hab htail ih =>
    cases k with
    | zero => exact htail
    | succ k => exact .cons hab (ih k)

/-- Where one list has an element, the other has its partner. -/
theorem forall₂_getElem? {β : Type*} {R : α → β → Prop} {l : List α} {m : List β} {k : ℕ} {a : α}
    (h : List.Forall₂ R l m) (ha : l[k]? = some a) : ∃ b, m[k]? = some b ∧ R a b := by
  induction h generalizing k with
  | nil => cases ha
  | @cons c d l m hab htail ih =>
    cases k with
    | zero =>
      obtain rfl := Option.some.inj ha
      exact ⟨d, rfl, hab⟩
    | succ k => exact ih ha

/-- What the members of a bag come to together. -/
def total (f : α → ℕ) : List α → ℕ
  | [] => 0
  | a :: l => f a + total f l

/-- The order does not matter to a total. -/
theorem total_perm (f : α → ℕ) {l l' : List α} (h : l.Perm l') : total f l = total f l' := by
  induction h with
  | nil => rfl
  | cons a _ ih => rw [total, total, ih]
  | swap a b l =>
    simp only [total]
    omega
  | trans _ _ ih ih' => exact ih.trans ih'

/-- A bound of each is a bound of the total, once for each. -/
theorem total_le (f : α → ℕ) {n : ℕ} (h : ∀ a, f a ≤ n) (l : List α) :
    total f l ≤ n * l.length := by
  induction l with
  | nil => exact Nat.le_refl _
  | cons a l ih =>
    have ha := h a
    rw [total, List.length_cons, Nat.mul_add]
    omega

end Common
