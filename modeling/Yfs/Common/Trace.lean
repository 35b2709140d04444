import Yfs.Common.Run

/-!
# What a machine answers

A machine takes inputs and gives an output for each: `σ → α → Option (σ × β)`,
`none` where it breaks off. `trace` is what it answers over a whole run.
Where one machine follows another step by step, under a condition on the
other's state and the input, it gives the same answers over every run
whose inputs meet the condition.
-/

namespace Common

variable {σ τ α β : Type*}

/-- The state after a list of inputs, and the outputs. -/
def trace (serve : σ → α → Option (σ × β)) : σ → List α → Option (σ × List β)
  | s, [] => some (s, [])
  | s, a :: as => (serve s a).bind fun r => (trace serve r.1 as).map fun q => (q.1, r.2 :: q.2)

/-- **The simulation rule.** The answers of the abstract machine, which
does not break off, are those of the other. -/
theorem trace_simulates (abs : τ → α → τ × β) (serve : σ → α → Option (σ × β))
    (R : τ → σ → Prop) {C : τ → α → Prop}
    (hstep : ∀ t s a, R t s → C t a → ∃ s', serve s a = some (s', (abs t a).2) ∧ R (abs t a).1 s')
    {t : τ} {s : σ} {as : List α} (h0 : R t s)
    (hC : Steps (fun t a => some (abs t a).1) C t as) :
    ∃ t' s' bs, trace (fun t a => some (abs t a)) t as = some (t', bs) ∧
      trace serve s as = some (s', bs) ∧ R t' s' := by
  induction as generalizing t s with
  | nil => exact ⟨t, s, [], rfl, rfl, h0⟩
  | cons a as ih =>
    obtain ⟨s₁, hs, h1⟩ := hstep t s a h0 hC.1
    obtain ⟨t', s', bs, ht, hs', hR⟩ := ih h1 (hC.2 _ rfl)
    refine ⟨t', s', (abs t a).2 :: bs, ?_, ?_, hR⟩
    · rw [trace, Option.bind_some, ht, Option.map_some]
    · rw [trace, hs, Option.bind_some, hs', Option.map_some]

end Common
