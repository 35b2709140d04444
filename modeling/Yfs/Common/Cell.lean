import Mathlib.Logic.Function.Basic

/-!
# A value that clients read and put back

Clients share a value. Each reads it, makes something of what it read and
puts that back, and between the two the others do the same. `done` is the
record of the updates put back, newest first. As long as every client puts
back what it made of the present value, the value is what the updates make
one after the other of the first (`Serial`), and what a client holds is
what the older of them make of it. What a client that holds an older value
does to it is for the development that uses this to say. In any case the
value is what some of the updates make of the first, in the order in which
they were put back (`Branched`).
-/

namespace Common

variable {ι α ω : Type*}

/-- The value, what each client has read of it and not put back yet, and
the updates done, newest first. -/
structure Cell (ι α ω : Type*) where
  value : α
  held : ι → Option α
  done : List ω

namespace Cell

/-- What the updates, newest first, make of `v₀`. -/
def replay (apply : ω → α → α) (v₀ : α) (ws : List ω) : α := ws.foldr apply v₀

theorem replay_cons (apply : ω → α → α) (v₀ : α) (w : ω) (ws : List ω) :
    replay apply v₀ (w :: ws) = apply w (replay apply v₀ ws) := rfl

/-- The value is what all the updates make of `v₀`, and what a client
holds is what the older of them make of it. -/
structure Serial (apply : ω → α → α) (v₀ : α) (c : Cell ι α ω) : Prop where
  value : c.value = replay apply v₀ c.done
  held : ∀ i v, c.held i = some v → ∃ ws, ws <:+ c.done ∧ v = replay apply v₀ ws

variable [DecidableEq ι]

/-- The client reads. -/
def read (c : Cell ι α ω) (i : ι) : Cell ι α ω :=
  { c with held := Function.update c.held i (some c.value) }

/-- The client gives up. -/
def drop (c : Cell ι α ω) (i : ι) : Cell ι α ω :=
  { c with held := Function.update c.held i none }

/-- The client puts back what the update makes of `v`. -/
def commit (apply : ω → α → α) (c : Cell ι α ω) (i : ι) (w : ω) (v : α) : Cell ι α ω :=
  ⟨apply w v, Function.update c.held i none, w :: c.done⟩

variable {apply : ω → α → α} {v₀ : α} {c : Cell ι α ω}

theorem Serial.read (h : Serial apply v₀ c) (i : ι) : Serial apply v₀ (c.read i) where
  value := h.value
  held j v hj := by
    by_cases hji : j = i
    · subst hji
      simp only [Cell.read, Function.update_self, Option.some.injEq] at hj
      exact ⟨c.done, List.suffix_rfl, hj ▸ h.value⟩
    · simp only [Cell.read, Function.update_of_ne hji] at hj
      exact h.held j v hj

/-- What the other clients hold stays, also where the record grows. -/
theorem Serial.held_update (h : Serial apply v₀ c) (i : ι) {ws : List ω} (hws : c.done <:+ ws) :
    ∀ j v, Function.update c.held i none j = some v →
      ∃ us, us <:+ ws ∧ v = replay apply v₀ us := by
  intro j v hj
  by_cases hji : j = i
  · subst hji
    rw [Function.update_self] at hj
    cases hj
  · rw [Function.update_of_ne hji] at hj
    obtain ⟨us, hus, hv⟩ := h.held j v hj
    exact ⟨us, hus.trans hws, hv⟩

theorem Serial.drop (h : Serial apply v₀ c) (i : ι) : Serial apply v₀ (c.drop i) where
  value := h.value
  held := h.held_update i List.suffix_rfl

/-- **The update is of the present value**, and comes after all the others. -/
theorem Serial.commit (h : Serial apply v₀ c) (i : ι) (w : ω) :
    Serial apply v₀ (c.commit apply i w c.value) where
  value := by rw [Cell.commit, replay_cons, h.value]
  held := h.held_update i (List.suffix_cons w c.done)

/-- The value is what some of the updates make of `v₀`, the newest among
them, and what a client holds is what some of them make of it. -/
structure Branched (apply : ω → α → α) (v₀ : α) (c : Cell ι α ω) : Prop where
  value : ∃ ws, ws.Sublist c.done ∧ ws.head? = c.done.head? ∧ c.value = replay apply v₀ ws
  held : ∀ i v, c.held i = some v → ∃ ws, ws.Sublist c.done ∧ v = replay apply v₀ ws

theorem Branched.read (h : Branched apply v₀ c) (i : ι) : Branched apply v₀ (c.read i) where
  value := h.value
  held j v hj := by
    by_cases hji : j = i
    · subst hji
      simp only [Cell.read, Function.update_self, Option.some.injEq] at hj
      obtain ⟨ws, hws, -, hvalue⟩ := h.value
      exact ⟨ws, hws, hj ▸ hvalue⟩
    · simp only [Cell.read, Function.update_of_ne hji] at hj
      exact h.held j v hj

/-- What the other clients hold stays, also where the record grows. -/
theorem Branched.held_update (h : Branched apply v₀ c) (i : ι) {ws : List ω}
    (hws : c.done.Sublist ws) : ∀ j v, Function.update c.held i none j = some v →
      ∃ us, us.Sublist ws ∧ v = replay apply v₀ us := by
  intro j v hj
  by_cases hji : j = i
  · subst hji
    rw [Function.update_self] at hj
    cases hj
  · rw [Function.update_of_ne hji] at hj
    obtain ⟨us, hus, hv⟩ := h.held j v hj
    exact ⟨us, hus.trans hws, hv⟩

theorem Branched.drop (h : Branched apply v₀ c) (i : ι) : Branched apply v₀ (c.drop i) where
  value := h.value
  held := h.held_update i (List.Sublist.refl _)

/-- **The update is of what the client holds**, be that the present value
or an older one. -/
theorem Branched.commit (h : Branched apply v₀ c) {i : ι} {v : α} (hv : c.held i = some v)
    (w : ω) : Branched apply v₀ (c.commit apply i w v) where
  value := by
    obtain ⟨ws, hws, rfl⟩ := h.held i v hv
    exact ⟨w :: ws, hws.cons_cons w, rfl, rfl⟩
  held := h.held_update i (List.sublist_cons_self w c.done)

end Cell

end Common
