import DocPipeline.Library.Runs

/-!
# The potential method for runs

Work done by the steps of a run is paid for by what is credited to them, by
the potential they use up, and by a grant that may grow during the run. A
potential that is a sum over processes needs the processes of the run only.
-/

set_option autoImplicit false

namespace LabelledRuns

variable {σ ℓ : Type}

def total (f : σ → ℓ → ℕ) : List (σ × ℓ) → ℕ
  | [] => 0
  | x::t => f x.1 x.2+total f t

theorem total_add (f g : σ → ℓ → ℕ) (t : List (σ × ℓ)) :
    total (fun s l => f s l+g s l) t = total f t+total g t := by
  induction t with
  | nil => rfl
  | cons x t ih =>
    simp only [total, ih]
    omega

/-- A constant charge counts the steps that are charged. -/
theorem total_ite (p : σ × ℓ → Bool) (n : ℕ) (t : List (σ × ℓ)) :
    total (fun s l => if p (s,l) then n else 0) t = n*t.countP p := by
  induction t with
  | nil => rfl
  | cons x t ih =>
    simp only [total, ih, List.countP_cons]
    split <;> simp [Nat.mul_add, Nat.add_comm]

variable {step : σ → ℓ → Option σ} {s₀ s : σ} {t : List (σ × ℓ)}

/-- The potential method: if every step pays for its work, the run does. -/
theorem Trail.amortized {ok : σ → ℓ → Prop} {potential grant : σ → ℕ} {work credit : σ → ℓ → ℕ}
    (hstep : ∀ s l s', Reachable step s₀ s → ok s l → step s l = some s' →
      potential s'+work s l+grant s ≤ potential s+credit s l+grant s')
    (h : Trail step s₀ t s) (ha : Allowed ok t) :
    potential s+total work t+grant s₀ ≤ potential s₀+total credit t+grant s := by
  induction h with
  | start => simp [total]
  | @next t s s' l h hs ih =>
    have hi := ih (fun x hx => ha x (List.mem_cons_of_mem _ hx))
    have hl := hstep s l s' ⟨t,h⟩ (ha _ List.mem_cons_self) hs
    simp only [total]
    omega

/-- A balance: what a step takes out of a stock and what it brings in. -/
theorem Trail.balance {M : Type} [AddCommMonoid M] {stock : σ → M} {into out : σ × ℓ → M}
    {ok : σ → ℓ → Prop} (hstep : ∀ s l s', Reachable step s₀ s → ok s l → step s l = some s' →
      stock s'+out (s,l) = stock s+into (s,l))
    (h : Trail step s₀ t s) (ha : Allowed ok t) :
    stock s+(t.map out).sum = stock s₀+(t.map into).sum := by
  induction h with
  | start => rfl
  | @next t s s' l h hs ih =>
    have hi := ih (fun x hx => ha x (List.mem_cons_of_mem _ hx))
    have hl := hstep s l s' ⟨t,h⟩ (ha _ List.mem_cons_self) hs
    calc stock s'+(((s,l)::t).map out).sum = (stock s'+out (s,l))+(t.map out).sum := by
          rw [List.map_cons, List.sum_cons, add_assoc]
      _ = (stock s+into (s,l))+(t.map out).sum := by rw [hl]
      _ = (stock s+(t.map out).sum)+into (s,l) := by rw [add_right_comm]
      _ = (stock s₀+(t.map into).sum)+into (s,l) := by rw [hi]
      _ = stock s₀+(((s,l)::t).map into).sum := by
          rw [List.map_cons, List.sum_cons, add_assoc, add_comm (into (s,l))]

/-- A sum over finitely many processes, of which only one has moved. -/
theorem sum_moved {M : Type} [AddCommMonoid M] {f g : ℕ → M} {W : Finset ℕ} {w : ℕ} (hw : w ∈ W)
    (hother : ∀ v, v ≠ w → g v = f v) : ∑ v ∈ W, g v+f w = ∑ v ∈ W, f v+g w := by
  rw [← Finset.add_sum_erase W f hw, ← Finset.add_sum_erase W g hw,
    Finset.sum_congr rfl (fun v hv => hother v (Finset.ne_of_mem_erase hv))]
  abel

/-- A sum of ranks over finitely many processes, when one of them moves. -/
theorem sum_rank_update {α : Type} (rank : α → ℕ) (f : ℕ → α) {W : Finset ℕ} {w : ℕ}
    (hw : w ∈ W) (x : α) :
    ∑ v ∈ W, rank (Function.update f w x v)+rank (f w) = ∑ v ∈ W, rank (f v)+rank x := by
  have hsum := sum_moved (f := fun v => rank (f v)) (g := fun v => rank (Function.update f w x v)) hw
    (fun v hv => by rw [Function.update_of_ne hv])
  simpa using hsum

end LabelledRuns
