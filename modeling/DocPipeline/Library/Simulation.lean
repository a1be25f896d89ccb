import DocPipeline.Library.Runs

/-!
# Simulation up to stuttering

A step function is seen through a map to the states of a second one. If every
step is seen as a step of the second one or is not seen at all, then so is
every run, and what holds of all reachable states of the second one holds of
what is seen.
-/

set_option autoImplicit false

namespace LabelledRuns

variable {σ ℓ τ κ : Type}

/-- The second system may use what is known of its own reachable states. -/
def Simulates (step : σ → ℓ → Option σ) (s₀ : σ) (step' : τ → κ → Option τ) (see : σ → τ) : Prop :=
  ∀ s l s', Reachable step s₀ s → Reachable step' (see s₀) (see s) → step s l = some s' →
    see s' = see s ∨ ∃ l', step' (see s) l' = some (see s')

variable {step : σ → ℓ → Option σ} {s₀ s : σ} {step' : τ → κ → Option τ} {see : σ → τ}
  {t : List (σ × ℓ)}

/-- A run is seen as a run that passes through the same states. -/
theorem Simulates.trail (h : Simulates step s₀ step' see) (ht : Trail step s₀ t s) :
    ∃ t', Trail step' (see s₀) t' (see s) ∧
      ∀ y, y ∈ Visited t' (see s) ↔ ∃ x ∈ Visited t s, see x = y := by
  induction ht with
  | start => exact ⟨[],.start,fun y => by simp [Visited, eq_comm]⟩
  | @next t s s' l ht hs ih =>
    obtain ⟨t',ht',hv⟩ := ih
    have hold : ∀ y, (∃ x ∈ Visited ((s,l)::t) s', see x = y) ↔
        see s' = y ∨ ∃ x ∈ Visited t s, see x = y := by
      intro y
      simp [Visited]
    rcases h s l s' ⟨t,ht⟩ ⟨t',ht'⟩ hs with heq | ⟨l',hl'⟩
    · refine ⟨t',heq ▸ ht',fun y => ?_⟩
      rw [hold, heq, hv]
      constructor
      · exact Or.inr
      · rintro (rfl | hx)
        · exact ⟨s,List.mem_cons_self,rfl⟩
        · exact hx
    · refine ⟨(see s,l')::t',ht'.next hl',fun y => ?_⟩
      rw [hold, ← hv]
      simp [Visited, eq_comm]

theorem Simulates.reachable (h : Simulates step s₀ step' see) (hs : Reachable step s₀ s) :
    Reachable step' (see s₀) (see s) := by
  obtain ⟨t,ht⟩ := hs
  obtain ⟨t',ht',-⟩ := h.trail ht
  exact ⟨t',ht'⟩

end LabelledRuns
