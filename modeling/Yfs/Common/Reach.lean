import Yfs.Common.Run

/-!
# Ways on

`CanReach` says that a state can still be led, by steps of a given kind,
to one with a property. Whether a step is of the kind may depend on the
state before it. Ways are put together step by step, from the last step
back.
-/

namespace Common

variable {σ α : Type*} {step : σ → α → Option σ} {A : σ → α → Prop}

theorem steps_append {s : σ} {as bs : List α} :
    Steps step A s (as ++ bs) ↔
      Steps step A s as ∧ ∀ t, exec step s as = some t → Steps step A t bs := by
  induction as generalizing s with
  | nil => exact ⟨fun h => ⟨trivial, fun t ht => Option.some.inj ht ▸ h⟩, fun h => h.2 s rfl⟩
  | cons a as ih =>
    constructor
    · rintro ⟨ha, hlater⟩
      refine ⟨⟨ha, fun s' hs => (ih.1 (hlater s' hs)).1⟩, fun t ht => ?_⟩
      obtain ⟨s', hs, ht⟩ := exec_cons_eq_some.1 ht
      exact (ih.1 (hlater s' hs)).2 t ht
    · rintro ⟨⟨ha, has⟩, hbs⟩
      refine ⟨ha, fun s' hs => ih.2 ⟨has s' hs, fun t ht => hbs t ?_⟩⟩
      exact exec_cons_eq_some.2 ⟨s', hs, ht⟩

/-- There is a way from `s`, by steps in `A`, to a state with `P`. -/
def CanReach (step : σ → α → Option σ) (A : σ → α → Prop) (P : σ → Prop) (s : σ) : Prop :=
  ∃ as s', Steps step A s as ∧ exec step s as = some s' ∧ P s'

variable {P Q : σ → Prop} {s s' : σ}

theorem CanReach.here (h : P s) : CanReach step A P s := ⟨[], s, trivial, rfl, h⟩

theorem CanReach.cons {a : α} (ha : A s a) (hs : step s a = some s')
    (h : CanReach step A P s') : CanReach step A P s := by
  obtain ⟨as, t, has, hexec, ht⟩ := h
  refine ⟨a :: as, t, ⟨ha, fun u hu => ?_⟩, exec_cons_eq_some.2 ⟨s', hs, hexec⟩, ht⟩
  obtain rfl := Option.some.inj (hs.symm.trans hu)
  exact has

/-- **Ways compose.** -/
theorem CanReach.bind (h : CanReach step A P s) (hPQ : ∀ t, P t → CanReach step A Q t) :
    CanReach step A Q s := by
  obtain ⟨as, t, has, hexec, ht⟩ := h
  obtain ⟨bs, u, hbs, hexec', hu⟩ := hPQ t ht
  refine ⟨as ++ bs, u, steps_append.2 ⟨has, fun t' ht' => ?_⟩, ?_, hu⟩
  · obtain rfl := Option.some.inj (hexec.symm.trans ht')
    exact hbs
  · rw [exec_append, hexec]
    exact hexec'

end Common
