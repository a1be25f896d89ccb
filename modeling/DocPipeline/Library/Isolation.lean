import Mathlib.Tactic

/-!
# Open transactions that do not disturb each other

Each process has a list of writes that wait for its commit. A write is ready
when applying it now would do what it was issued for. Writes of different
processes are kept apart, and a write stays ready while writes apart from it
are applied; so whatever the order of commits, every write is ready when its
turn comes.
-/

set_option autoImplicit false

namespace OpenTransactions

variable {δ ω π : Type}

structure Rules (δ ω : Type) where
  apply : δ → ω → δ
  Ready : δ → ω → Prop
  Apart : ω → ω → Prop
  symm : ∀ {w v}, Apart w v → Apart v w
  stable : ∀ {db w v}, Ready db w → Ready db v → Apart w v → Ready (apply db w) v

structure Isolated (R : Rules δ ω) (db : δ) (pending : π → List ω) : Prop where
  ready : ∀ p, ∀ w ∈ pending p, R.Ready db w
  own : ∀ p, (pending p).Pairwise R.Apart
  apart : ∀ p q, p ≠ q → ∀ w ∈ pending p, ∀ v ∈ pending q, R.Apart w v

variable {R : Rules δ ω} {db : δ} {pending pending' : π → List ω}

theorem ready_foldl (ws : List ω) (hown : ws.Pairwise R.Apart) (hws : ∀ w ∈ ws, R.Ready db w)
    {v : ω} (hv : R.Ready db v) (ha : ∀ w ∈ ws, R.Apart w v) :
    R.Ready (ws.foldl R.apply db) v := by
  induction ws generalizing db with
  | nil => exact hv
  | cons w ws ih =>
    obtain ⟨hw,hown⟩ := List.pairwise_cons.mp hown
    have hr := hws w List.mem_cons_self
    refine ih hown (fun x hx => ?_) ?_ (fun x hx => ha x (List.mem_cons_of_mem _ hx))
    · exact R.stable hr (hws x (List.mem_cons_of_mem _ hx)) (hw x hx)
    · exact R.stable hr hv (ha w List.mem_cons_self)

namespace Isolated

/-- Ending a transaction without a commit. -/
theorem shrink (h : Isolated R db pending)
    (hp : ∀ q, pending' q = pending q ∨ pending' q = []) : Isolated R db pending' := by
  have hmem : ∀ q, ∀ w ∈ pending' q, w ∈ pending q := by
    intro q w hw
    rcases hp q with he | he
    · rwa [he] at hw
    · simp [he] at hw
  refine ⟨fun q w hw => h.ready q w (hmem q w hw),fun q => ?_,
    fun p q hpq w hw v hv => h.apart p q hpq w (hmem p w hw) v (hmem q v hv)⟩
  rcases hp q with he | he
  · rw [he]
    exact h.own q
  · rw [he]
    exact List.Pairwise.nil

/-- Issuing one more write. -/
theorem add [DecidableEq π] (h : Isolated R db pending) (p : π) {w : ω}
    (hp : ∀ q, pending' q = if q = p then pending p ++ [w] else pending q)
    (hw : R.Ready db w) (ha : ∀ q, ∀ v ∈ pending q, R.Apart v w) : Isolated R db pending' := by
  have hmem : ∀ q, ∀ v ∈ pending' q, v ∈ pending q ∨ (q = p ∧ v = w) := by
    intro q v hv
    rw [hp q] at hv
    split at hv
    · rename_i hq
      rcases List.mem_append.mp hv with hv | hv
      · exact Or.inl (hq ▸ hv)
      · exact Or.inr ⟨hq,List.mem_singleton.mp hv⟩
    · exact Or.inl hv
  constructor
  · intro q v hv
    rcases hmem q v hv with hv | ⟨-,rfl⟩
    · exact h.ready q v hv
    · exact hw
  · intro q
    rw [hp q]
    split
    · refine List.pairwise_append.mpr ⟨h.own p,List.pairwise_singleton _ _,?_⟩
      intro v hv x hx
      obtain rfl := List.mem_singleton.mp hx
      exact ha p v hv
    · exact h.own q
  · intro q q' hq v hv v' hv'
    rcases hmem q v hv with hv | ⟨rfl,rfl⟩ <;> rcases hmem q' v' hv' with hv' | ⟨rfl,rfl⟩
    · exact h.apart q q' hq v hv v' hv'
    · exact ha q v hv
    · exact R.symm (ha q' v' hv')
    · exact absurd rfl hq

/-- Committing all writes of one process at once. -/
theorem commit [DecidableEq π] (h : Isolated R db pending) (p : π)
    (hp : ∀ q, pending' q = if q = p then [] else pending q) :
    Isolated R ((pending p).foldl R.apply db) pending' := by
  have hshrink : Isolated R db pending' := by
    refine h.shrink (fun q => ?_)
    rw [hp q]
    split
    · exact Or.inr rfl
    · exact Or.inl rfl
  refine ⟨fun q w hw => ?_,hshrink.own,hshrink.apart⟩
  rw [hp q] at hw
  split at hw
  · simp at hw
  · rename_i hq
    exact ready_foldl _ (h.own p) (h.ready p) (h.ready q w hw)
      (fun x hx => h.apart p q (Ne.symm hq) x hx w hw)

end Isolated

end OpenTransactions
