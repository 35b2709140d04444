import Mathlib.Data.Finset.Max
import Mathlib.Order.Nat

/-!
# Waiting for resources in the order of their ranks

Clients hold resources and wait for others. Where each takes them in the
order of their ranks, they do not wait for each other in a circle: of those
that hold what somebody waits for, one waits for nothing.
-/

namespace Common

variable {α ρ : Type*} {waits : List (α × ρ)}

/-- Who holds the resource of the highest rank that somebody waits for
cannot be waiting: it would wait for a higher one. -/
theorem exists_idle_holder (held : α → ρ → Prop) (rank : ρ → ℕ) (hne : waits ≠ [])
    (howned : ∀ w ∈ waits, ∃ c, held c w.2)
    (hranked : ∀ w ∈ waits, ∀ r, held w.1 r → rank r < rank w.2) :
    ∃ c r, held c r ∧ ∀ w ∈ waits, w.1 ≠ c := by
  classical
  obtain ⟨w, hw, hmax⟩ := waits.toFinset.exists_max_image (fun w => rank w.2)
    (List.toFinset_nonempty_iff waits |>.2 hne)
  rw [List.mem_toFinset] at hw
  obtain ⟨c, hc⟩ := howned w hw
  refine ⟨c, w.2, hc, fun w' hw' heq => ?_⟩
  have hlt := hranked w' hw' w.2 (heq ▸ hc)
  have hle := hmax w' (List.mem_toFinset.2 hw')
  omega

end Common
