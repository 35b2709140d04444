import Mathlib.Data.List.Nodup

/-!
# Linearizability

Operations on an object are invoked and return, in a history kept newest
first. The history is linearizable if the operations can be put in an
order in which the object, asked for one after the other, gives the
results that were returned: an operation that has not returned may or may
not be among them, and none comes before one that returned before it was
invoked. A linearization is built along a run, an operation added to it at
the moment it takes effect.
-/

namespace Common

/-- What is seen of an operation. -/
inductive Seen (ο : Type*) (ρ : ο → Type*)
  | invoked (o : ο)
  | returned (o : ο) (r : ρ o)

variable {σ ο : Type*} {ρ : ο → Type*}

/-- The operations, newest first, lead the object from `x₀` to the last
state, each as `does` says. -/
inductive Sequential (does : σ → (o : ο) → ρ o → σ → Prop) (x₀ : σ) :
    List ((o : ο) × ρ o) → σ → Prop
  | nil : Sequential does x₀ [] x₀
  | cons {lin : List ((o : ο) × ρ o)} {x x' : σ} {o : ο} {r : ρ o} :
      Sequential does x₀ lin x → does x o r x' → Sequential does x₀ (⟨o, r⟩ :: lin) x'

/-- The order `lin` explains the history `h`, and leaves the object in the
state `x`. -/
structure Linearization (does : σ → (o : ο) → ρ o → σ → Prop) (x₀ : σ) (h : List (Seen ο ρ))
    (lin : List ((o : ο) × ρ o)) (x : σ) : Prop where
  sequential : Sequential does x₀ lin x
  invoked : ∀ o ∈ lin.map Sigma.fst, .invoked o ∈ h
  returned : ∀ o r, .returned o r ∈ h → ⟨o, r⟩ ∈ lin
  /-- What returned before `o'` was invoked is before it. -/
  order : ∀ o r o', [.invoked o', .returned o r].Sublist h → o' ∈ lin.map Sigma.fst →
    [o', o].Sublist (lin.map Sigma.fst)

/-- There is such an order, with each operation in it once. -/
def Linearizable (does : σ → (o : ο) → ρ o → σ → Prop) (x₀ : σ) (h : List (Seen ο ρ)) (x : σ) :
    Prop :=
  ∃ lin, (lin.map Sigma.fst).Nodup ∧ Linearization does x₀ h lin x

section

variable {does : σ → (o : ο) → ρ o → σ → Prop} {x₀ x x' : σ} {h : List (Seen ο ρ)}
variable {lin : List ((o : ο) × ρ o)} {o : ο} {r : ρ o}

theorem linearization_nil : Linearization does x₀ [] [] x₀ where
  sequential := .nil
  invoked := by simp
  returned := by simp
  order := by simp

/-- An operation is invoked that was not invoked before. -/
theorem Linearization.invoke (hl : Linearization does x₀ h lin x) (hnew : .invoked o ∉ h) :
    Linearization does x₀ (.invoked o :: h) lin x where
  sequential := hl.sequential
  invoked := fun o ho => List.mem_cons_of_mem _ (hl.invoked o ho)
  returned := fun o r ho => hl.returned o r (by simpa using ho)
  order := by
    intro o₁ r₁ o' hsub ho'
    rcases List.sublist_cons_iff.1 hsub with hsub | ⟨l, hl', -⟩
    · exact hl.order o₁ r₁ o' hsub ho'
    · -- what is in the order has been invoked
      obtain ⟨heq, -⟩ := List.cons_eq_cons.1 hl'
      obtain rfl := Seen.invoked.inj heq
      exact absurd (hl.invoked o' ho') hnew

/-- An operation takes effect. -/
theorem Linearization.takeEffect (hl : Linearization does x₀ h lin x) (ho : .invoked o ∈ h)
    (hdoes : does x o r x') : Linearization does x₀ h (⟨o, r⟩ :: lin) x' where
  sequential := hl.sequential.cons hdoes
  invoked := by
    intro o' ho'
    rcases List.mem_cons.1 ho' with rfl | ho'
    · exact ho
    · exact hl.invoked o' ho'
  returned := fun o r ho => List.mem_cons_of_mem _ (hl.returned o r ho)
  order := by
    intro o₁ r₁ o' hsub ho'
    rcases List.mem_cons.1 ho' with rfl | ho'
    · -- what has returned is in the order already
      have hret : .returned o₁ r₁ ∈ h := hsub.subset (by simp)
      have hmem := List.mem_map_of_mem (f := Sigma.fst) (hl.returned o₁ r₁ hret)
      exact (List.singleton_sublist.2 hmem).cons_cons _
    · exact (hl.order o₁ r₁ o' hsub ho').cons _

/-- An operation that took effect returns. -/
theorem Linearization.answer (hl : Linearization does x₀ h lin x) (hr : ⟨o, r⟩ ∈ lin) :
    Linearization does x₀ (.returned o r :: h) lin x where
  sequential := hl.sequential
  invoked := fun o ho => List.mem_cons_of_mem _ (hl.invoked o ho)
  returned := by
    intro o' r' ho'
    rcases List.mem_cons.1 ho' with heq | ho'
    · cases heq
      exact hr
    · exact hl.returned o' r' ho'
  order := by
    intro o₁ r₁ o' hsub ho'
    rcases List.sublist_cons_iff.1 hsub with hsub | ⟨l, hl', -⟩
    · exact hl.order o₁ r₁ o' hsub ho'
    · cases (List.cons_eq_cons.1 hl').1

end

end Common
