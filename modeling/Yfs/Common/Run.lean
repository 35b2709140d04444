import Mathlib.Data.List.Basic

/-!
# Runs of a labelled step function

A system is a step function `σ → α → Option σ`: the state after an
action, or `none` where the action is not enabled. `exec` runs a list of
actions; a property of every state of a run is `Along`, one of every step
of it `Steps`. The invariant rules are the inductions the developments
below use: a property of the initial state that every step keeps holds
at the end of every run, and along it.
-/

namespace Common

variable {σ α : Type*} {step : σ → α → Option σ}

/-- The state a list of actions leads to, if each is enabled in turn. -/
def exec (step : σ → α → Option σ) : σ → List α → Option σ
  | s, [] => some s
  | s, a :: as => (step s a).bind fun s' => exec step s' as

/-- `P` holds of every state a list of actions visits, the first included. -/
def Along (step : σ → α → Option σ) (P : σ → Prop) : σ → List α → Prop
  | s, [] => P s
  | s, a :: as => P s ∧ ∀ s', step s a = some s' → Along step P s' as

/-- `C` holds of every state and the action taken there. -/
def Steps (step : σ → α → Option σ) (C : σ → α → Prop) : σ → List α → Prop
  | _, [] => True
  | s, a :: as => C s a ∧ ∀ s', step s a = some s' → Steps step C s' as

theorem exec_cons (s : σ) (a : α) (as : List α) :
    exec step s (a :: as) = (step s a).bind fun s' => exec step s' as := rfl

theorem exec_cons_eq_some {s t : σ} {a : α} {as : List α} :
    exec step s (a :: as) = some t ↔ ∃ s', step s a = some s' ∧ exec step s' as = some t := by
  rw [exec_cons, Option.bind_eq_some_iff]

theorem exec_append (s : σ) (as bs : List α) :
    exec step s (as ++ bs) = (exec step s as).bind fun t => exec step t bs := by
  induction as generalizing s with
  | nil => rfl
  | cons a as ih =>
    rw [List.cons_append, exec_cons, exec_cons, Option.bind_assoc]
    exact congrArg _ (funext ih)

theorem Along.head {P : σ → Prop} {s : σ} {as : List α} (h : Along step P s as) : P s := by
  cases as with
  | nil => exact h
  | cons a as => exact h.1

theorem Along.last {P : σ → Prop} {s t : σ} {as : List α} (h : Along step P s as)
    (ht : exec step s as = some t) : P t := by
  induction as generalizing s with
  | nil => exact Option.some.inj ht ▸ h
  | cons a as ih =>
    obtain ⟨s', hs, ht⟩ := exec_cons_eq_some.1 ht
    exact ih (h.2 s' hs) ht

/-- **The invariant rule**, for a run whose steps all meet a condition. -/
theorem exec_invariant_of_steps {Inv : σ → Prop} {C : σ → α → Prop}
    (hstep : ∀ s a s', Inv s → C s a → step s a = some s' → Inv s')
    {s t : σ} {as : List α} (h0 : Inv s) (hC : Steps step C s as)
    (h : exec step s as = some t) : Inv t := by
  induction as generalizing s with
  | nil => exact Option.some.inj h ▸ h0
  | cons a as ih =>
    obtain ⟨s', hs, ht⟩ := exec_cons_eq_some.1 h
    exact ih (hstep s a s' h0 hC.1 hs) (hC.2 s' hs) ht

/-- The same, of every state such a run visits. -/
theorem along_of_steps {Inv P : σ → Prop} {C : σ → α → Prop}
    (hstep : ∀ s a s', Inv s → C s a → step s a = some s' → Inv s') (hP : ∀ s, Inv s → P s)
    {s : σ} {as : List α} (h0 : Inv s) (hC : Steps step C s as) : Along step P s as := by
  induction as generalizing s with
  | nil => exact hP s h0
  | cons a as ih =>
    exact ⟨hP s h0, fun s' hs => ih (hstep s a s' h0 hC.1 hs) (hC.2 s' hs)⟩

/-- What an invariant and the condition of a step say of the step holds of
every step of such a run. -/
theorem steps_of_steps {Inv : σ → Prop} {C D : σ → α → Prop}
    (hstep : ∀ s a s', Inv s → C s a → step s a = some s' → Inv s')
    (hD : ∀ s a, Inv s → C s a → D s a) {s : σ} {as : List α} (h0 : Inv s)
    (hC : Steps step C s as) : Steps step D s as := by
  induction as generalizing s with
  | nil => trivial
  | cons a as ih =>
    exact ⟨hD s a h0 hC.1, fun s' hs => ih (hstep s a s' h0 hC.1 hs) (hC.2 s' hs)⟩

/-- **The two agree**, where an invariant gives `P`, a step that meets `C`
keeps it, and `P` after a step says that the step met `C`. -/
theorem along_iff_steps {Inv P : σ → Prop} {C : σ → α → Prop} (hP : ∀ s, Inv s → P s)
    (hstep : ∀ s a s', Inv s → C s a → step s a = some s' → Inv s')
    (hC : ∀ s a, Inv s → (∀ s', step s a = some s' → P s') → C s a) {s : σ} {as : List α}
    (h0 : Inv s) : Along step P s as ↔ Steps step C s as := by
  refine ⟨fun h => ?_, along_of_steps hstep hP h0⟩
  induction as generalizing s with
  | nil => trivial
  | cons a as ih =>
    have hCa : C s a := hC s a h0 fun s' hs => (h.2 s' hs).head
    exact ⟨hCa, fun s' hs => ih (hstep s a s' h0 hCa hs) (h.2 s' hs)⟩

theorem Steps.and {C D : σ → α → Prop} {s : σ} {as : List α} (hC : Steps step C s as)
    (hD : Steps step D s as) : Steps step (fun s a => C s a ∧ D s a) s as := by
  induction as generalizing s with
  | nil => trivial
  | cons a as ih => exact ⟨⟨hC.1, hD.1⟩, fun s' hs => ih (hC.2 s' hs) (hD.2 s' hs)⟩

theorem Steps.forall {κ : Type*} {C : κ → σ → α → Prop} {s : σ} {as : List α}
    (h : ∀ k, Steps step (C k) s as) : Steps step (fun s a => ∀ k, C k s a) s as := by
  induction as generalizing s with
  | nil => trivial
  | cons a as ih => exact ⟨fun k => (h k).1, fun s' hs => ih fun k => (h k).2 s' hs⟩

theorem Steps.imp {C D : σ → α → Prop} (hCD : ∀ s a, C s a → D s a) {s : σ} {as : List α}
    (h : Steps step C s as) : Steps step D s as := by
  induction as generalizing s with
  | nil => trivial
  | cons a as ih => exact ⟨hCD s a h.1, fun s' hs => ih (h.2 s' hs)⟩

/-- **The variant rule**: a run whose steps all make a number smaller is
not longer than the number is large. -/
theorem length_le_of_steps {C : σ → α → Prop} (μ : σ → ℕ)
    (hstep : ∀ s a s', C s a → step s a = some s' → μ s' < μ s) {s t : σ} {as : List α}
    (hC : Steps step C s as) (h : exec step s as = some t) : as.length ≤ μ s := by
  induction as generalizing s with
  | nil => exact Nat.zero_le _
  | cons a as ih =>
    obtain ⟨s', hs, ht⟩ := exec_cons_eq_some.1 h
    have hlt := hstep s a s' hC.1 hs
    have hle := ih (hC.2 s' hs) ht
    rw [List.length_cons]
    omega

/-- A run is followed to see whether its steps meet a condition. -/
instance Steps.decidable {C : σ → α → Prop} [∀ s a, Decidable (C s a)] :
    (s : σ) → (as : List α) → Decidable (Steps step C s as)
  | _, [] => isTrue trivial
  | s, a :: as =>
    match h : step s a with
    | none => decidable_of_iff (C s a)
        ⟨fun hC => ⟨hC, fun _ hs => nomatch h.symm.trans hs⟩, And.left⟩
    | some t =>
      have : Decidable (Steps step C t as) := Steps.decidable t as
      decidable_of_iff (C s a ∧ Steps step C t as)
        ⟨fun hC => ⟨hC.1, fun _ hs => Option.some.inj (h.symm.trans hs) ▸ hC.2⟩,
          fun hC => ⟨hC.1, hC.2 t h⟩⟩

/-- A condition that the actions meet in every state is met by the run. -/
theorem steps_of_forall {C : σ → α → Prop} {s : σ} {as : List α} (h : ∀ a ∈ as, ∀ s, C s a) :
    Steps step C s as := by
  induction as generalizing s with
  | nil => trivial
  | cons a as ih =>
    exact ⟨h a List.mem_cons_self s, fun _ _ => ih fun b hb => h b (List.mem_cons_of_mem a hb)⟩

/-- **The invariant rule.** -/
theorem exec_invariant {Inv : σ → Prop}
    (hstep : ∀ s a s', Inv s → step s a = some s' → Inv s')
    {s t : σ} {as : List α} (h0 : Inv s) (h : exec step s as = some t) : Inv t :=
  exec_invariant_of_steps (C := fun _ _ => True) (fun s a s' hI _ hs => hstep s a s' hI hs)
    h0 (steps_of_forall fun _ _ _ => trivial) h

/-- The same, of every state a run visits. -/
theorem along_invariant {Inv P : σ → Prop}
    (hstep : ∀ s a s', Inv s → step s a = some s' → Inv s') (hP : ∀ s, Inv s → P s)
    {s : σ} {as : List α} (h0 : Inv s) : Along step P s as :=
  along_of_steps (C := fun _ _ => True) (fun s a s' hI _ hs => hstep s a s' hI hs) hP
    h0 (steps_of_forall fun _ _ _ => trivial)

end Common
