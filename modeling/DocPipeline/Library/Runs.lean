import Mathlib.Tactic

/-!
# Runs of a labelled step function

A trail lists the steps of a run, newest first, each with the state it was
taken in. Invariants may be restricted to runs whose steps are all allowed.
The last rule characterises a property of whole runs by a condition on
single steps, in both directions.
-/

set_option autoImplicit false

namespace LabelledRuns

variable {σ ℓ : Type}

inductive Trail (step : σ → ℓ → Option σ) (s₀ : σ) : List (σ × ℓ) → σ → Prop
  | start : Trail step s₀ [] s₀
  | next {t : List (σ × ℓ)} {s s' : σ} {l : ℓ} (h : Trail step s₀ t s)
      (hs : step s l = some s') : Trail step s₀ ((s,l)::t) s'

def Reachable (step : σ → ℓ → Option σ) (s₀ s : σ) : Prop := ∃ t, Trail step s₀ t s

def Allowed (ok : σ → ℓ → Prop) (t : List (σ × ℓ)) : Prop := ∀ x ∈ t, ok x.1 x.2

/-- The states a trail passes through, the last one included. -/
def Visited (t : List (σ × ℓ)) (s : σ) : List σ := s::t.map Prod.fst

def run (step : σ → ℓ → Option σ) : σ → List ℓ → Option σ
  | s, [] => some s
  | s, l::ls => (step s l).bind fun s' => run step s' ls

variable {step : σ → ℓ → Option σ} {s₀ s : σ} {t : List (σ × ℓ)}

theorem Trail.trans {t' : List (σ × ℓ)} {s' : σ} (h : Trail step s₀ t s)
    (h' : Trail step s t' s') : Trail step s₀ (t'++t) s' := by
  induction h' with
  | start => exact h
  | next _ hs ih => exact ih.next hs

theorem trail_of_run (ls : List ℓ) {s' : σ} (h : run step s ls = some s') :
    ∃ t, Trail step s t s' ∧ t.map Prod.snd = ls.reverse := by
  induction ls generalizing s with
  | nil =>
    obtain rfl : s = s' := by simpa [run] using h
    exact ⟨[],.start,rfl⟩
  | cons l ls ih =>
    obtain ⟨m,hm,hr⟩ := Option.bind_eq_some_iff.mp h
    obtain ⟨t,ht,hl⟩ := ih hr
    refine ⟨t++[(s,l)],(Trail.start.next hm).trans ht,?_⟩
    simp [hl]

theorem reachable_of_run (ls : List ℓ) (h : (run step s ls).isSome = true) :
    Reachable step s ((run step s ls).getD s) := by
  obtain ⟨s',hs⟩ := Option.isSome_iff_exists.mp h
  obtain ⟨t,ht,-⟩ := trail_of_run ls hs
  rw [hs]
  exact ⟨t,ht⟩

theorem Reachable.next {l : ℓ} {s' : σ} (h : Reachable step s₀ s) (hs : step s l = some s') :
    Reachable step s₀ s' := by
  obtain ⟨t,ht⟩ := h
  exact ⟨_,ht.next hs⟩

theorem Trail.visited (h : Trail step s₀ t s) : ∀ x ∈ Visited t s, Reachable step s₀ x := by
  induction h with
  | start =>
    intro x hx
    obtain rfl : x = s₀ := by simpa [Visited] using hx
    exact ⟨[],.start⟩
  | next h hs ih =>
    intro x hx
    rcases List.mem_cons.mp hx with rfl | hx
    · exact ⟨_,h.next hs⟩
    · exact ih x hx

theorem Trail.invariant (ok : σ → ℓ → Prop) {I : σ → Prop} (h₀ : I s₀)
    (hstep : ∀ s l s', Reachable step s₀ s → I s → ok s l → step s l = some s' → I s')
    (h : Trail step s₀ t s) (ha : Allowed ok t) : I s := by
  induction h with
  | start => exact h₀
  | next h hs ih =>
    have hi := ih (fun x hx => ha x (List.mem_cons_of_mem _ hx))
    exact hstep _ _ _ ⟨_,h⟩ hi (ha _ List.mem_cons_self) hs

theorem allowed_of_labels {ok : σ → ℓ → Prop} {ls : List ℓ} (ht : t.map Prod.snd = ls.reverse)
    (h : ∀ s, ∀ l ∈ ls, ok s l) : Allowed ok t := by
  intro x hx
  refine h x.1 x.2 (List.mem_reverse.mp ?_)
  rw [← ht]
  exact List.mem_map_of_mem hx

theorem Reachable.invariant {I : σ → Prop} (h₀ : I s₀)
    (hstep : ∀ s l s', Reachable step s₀ s → I s → step s l = some s' → I s')
    (h : Reachable step s₀ s) : I s := by
  obtain ⟨t,ht⟩ := h
  induction ht with
  | start => exact h₀
  | next ht hs ih => exact hstep _ _ _ ⟨_,ht⟩ ih hs

/-- A relation between an earlier and a later state that every step keeps
holds between any two states of a run. -/
theorem Trail.relates {R : σ → σ → Prop} (hrefl : ∀ s, R s s)
    (hstep : ∀ a s l s', Reachable step s₀ s → R a s → step s l = some s' → R a s')
    (ha : Reachable step s₀ s) {s' : σ} (h : Trail step s t s') : R s s' := by
  induction h with
  | start => exact hrefl s
  | next h hs ih =>
    obtain ⟨t₀,ht₀⟩ := ha
    exact hstep _ _ _ _ ⟨_,ht₀.trans h⟩ ih hs

/-- What allowed steps keep holds on in every continuation of a run. -/
theorem Trail.onward (ok : σ → ℓ → Prop) {I : σ → Prop} (hr : Reachable step s₀ s) (h₀ : I s)
    (hstep : ∀ s l s', Reachable step s₀ s → I s → ok s l → step s l = some s' → I s') {s' : σ}
    (h : Trail step s t s') (ha : Allowed ok t) : I s' := by
  obtain ⟨t₀,ht₀⟩ := hr
  induction h with
  | start => exact h₀
  | next h hs ih =>
    have hi := ih (fun x hx => ha x (List.mem_cons_of_mem _ hx))
    exact hstep _ _ _ ⟨_,ht₀.trans h⟩ hi (ha _ List.mem_cons_self) hs

/-- If allowed steps keep `P` and every other step breaks it at once, then
`P` holds in all states of a run exactly when all its steps are allowed. -/
theorem Trail.always_iff {ok : σ → ℓ → Prop} {I P : σ → Prop}
    (hI : ∀ s, Reachable step s₀ s → I s) (h₀ : P s₀)
    (hkeep : ∀ s l s', I s → I s' → P s → ok s l → step s l = some s' → P s')
    (hbreak : ∀ s l s', I s → I s' → P s → ¬ ok s l → step s l = some s' → ¬ P s')
    (h : Trail step s₀ t s) : (∀ x ∈ Visited t s, P x) ↔ Allowed ok t := by
  induction h with
  | start => simp [Visited, Allowed, h₀]
  | @next t s s' l h hs ih =>
    have hs₁ := hI s ⟨t,h⟩
    have hs₂ := hI s' ⟨_,h.next hs⟩
    constructor
    · intro hp
      have ht := ih.mp (fun x hx => hp x (List.mem_cons_of_mem _ hx))
      have hPs := hp s (by simp [Visited])
      have hPs' := hp s' (by simp [Visited])
      intro x hx
      rcases List.mem_cons.mp hx with rfl | hx
      · by_contra hok
        exact hbreak _ _ _ hs₁ hs₂ hPs hok hs hPs'
      · exact ht x hx
    · intro hok
      have hp := ih.mpr (fun x hx => hok x (List.mem_cons_of_mem _ hx))
      have hPs := hp s (by simp [Visited])
      intro x hx
      rcases List.mem_cons.mp hx with rfl | hx
      · exact hkeep _ _ _ hs₁ hs₂ hPs (hok _ List.mem_cons_self) hs
      · exact hp x hx

def passes (step : σ → ℓ → Option σ) (ok : σ → ℓ → Bool) : σ → List ℓ → Bool
  | _, [] => true
  | s, l::ls => ok s l && (step s l).any (fun s' => passes step ok s' ls)

theorem trail_of_passes {ok : σ → ℓ → Bool} (ls : List ℓ) (h : passes step ok s ls = true) :
    ∃ t, Trail step s t ((run step s ls).getD s) ∧ Allowed (fun s l => ok s l = true) t ∧
      t.map Prod.snd = ls.reverse := by
  have hrun : ∃ s' t, run step s ls = some s' ∧ Trail step s t s' ∧
      Allowed (fun s l => ok s l = true) t ∧ t.map Prod.snd = ls.reverse := by
    induction ls generalizing s with
    | nil => exact ⟨s,[],rfl,.start,by simp [Allowed],rfl⟩
    | cons l ls ih =>
      simp only [passes, Bool.and_eq_true] at h
      obtain ⟨m,hm,hp⟩ := (Option.any_eq_true _ _).mp h.2
      obtain ⟨s',t,hr,ht,ha,hl⟩ := ih hp
      refine ⟨s',t++[(s,l)],by simp [run, hm, hr],(Trail.start.next hm).trans ht,?_,by simp [hl]⟩
      intro x hx
      rcases List.mem_append.mp hx with hx | hx
      · exact ha x hx
      · obtain rfl := List.mem_singleton.mp hx
        exact h.1
  obtain ⟨s',t,hr,ht,ha,hl⟩ := hrun
  exact ⟨t,by rw [hr]; exact ht,ha,hl⟩

def path (step : σ → ℓ → Option σ) : σ → List ℓ → List (σ × ℓ)
  | _, [] => []
  | s, l::ls => ((step s l).elim [] fun s' => path step s' ls)++[(s,l)]

theorem mem_path {ls : List ℓ} {x : σ × ℓ} (h : x ∈ path step s ls) : x.2 ∈ ls := by
  induction ls generalizing s with
  | nil => cases h
  | cons l ls ih =>
    rcases List.mem_append.mp h with h | h
    · cases hs : step s l with
      | none => simp [hs] at h
      | some s' => exact List.mem_cons_of_mem _ (ih (by simpa [hs] using h))
    · obtain rfl := List.mem_singleton.mp h
      exact List.mem_cons_self

theorem trail_path (ls : List ℓ) (h : (run step s ls).isSome = true) :
    Trail step s (path step s ls) ((run step s ls).getD s) := by
  induction ls generalizing s with
  | nil => exact .start
  | cons l ls ih =>
    cases hs : step s l with
    | none => simp [run, hs] at h
    | some s' =>
      simp only [run, hs, Option.bind_some] at h
      have ht := (Trail.start.next hs).trans (ih h)
      obtain ⟨x,hx⟩ := Option.isSome_iff_exists.mp h
      simpa [run, path, hs, hx] using ht

theorem run_append (s : σ) (ls ls' : List ℓ) :
    run step s (ls++ls') = (run step s ls).bind (fun x => run step x ls') := by
  induction ls generalizing s with
  | nil => rfl
  | cons l ls ih =>
    simp only [List.cons_append, run, Option.bind_assoc]
    exact congrArg _ (funext fun x => ih x)

theorem isSome_of_append {ls ls' : List ℓ} (h : (run step s (ls++ls')).isSome = true) :
    (run step s ls).isSome = true := by
  rw [run_append] at h
  cases hr : run step s ls with
  | none => simp [hr] at h
  | some m => rfl

/-- A run in two parts: the state between them and the trail of the second. -/
theorem trail_path_append {ls ls' : List ℓ} (h : (run step s (ls++ls')).isSome = true) :
    Reachable step s ((run step s ls).getD s) ∧
      Trail step ((run step s ls).getD s) (path step ((run step s ls).getD s) ls')
        ((run step s (ls++ls')).getD s) := by
  rw [run_append] at h ⊢
  obtain ⟨s',hs'⟩ := Option.isSome_iff_exists.mp h
  obtain ⟨m,hm,hr⟩ := Option.bind_eq_some_iff.mp hs'
  have ht := trail_path (s := m) ls' (by simp [hr] : (run step m ls').isSome = true)
  obtain ⟨t,ht₀,-⟩ := trail_of_run ls hm
  simp only [hm, Option.getD_some, Option.bind_some, hr] at ht ⊢
  exact ⟨⟨t,ht₀⟩,ht⟩

/-- A part of the state that no label of the run is about stays as it was. -/
theorem Trail.frame {β : Type} (g : σ → β) (touches : ℓ → Prop)
    (hstep : ∀ s l s', ¬ touches l → step s l = some s' → g s' = g s) (h : Trail step s₀ t s)
    (ht : ∀ x ∈ t, ¬ touches x.2) : g s = g s₀ := by
  induction h with
  | start => rfl
  | next h hs ih =>
    rw [hstep _ _ _ (ht _ List.mem_cons_self) hs]
    exact ih (fun x hx => ht x (List.mem_cons_of_mem _ hx))

theorem Trail.frame_visited {β : Type} (g : σ → β) (touches : ℓ → Prop)
    (hstep : ∀ s l s', ¬ touches l → step s l = some s' → g s' = g s) (h : Trail step s₀ t s)
    (ht : ∀ x ∈ t, ¬ touches x.2) : ∀ x ∈ Visited t s, g x = g s₀ := by
  induction h with
  | start =>
    intro x hx
    obtain rfl := List.mem_singleton.mp hx
    rfl
  | next h hs ih =>
    intro x hx
    rcases List.mem_cons.mp hx with rfl | hx
    · exact (h.next hs).frame g touches hstep ht
    · exact ih (fun y hy => ht y (List.mem_cons_of_mem _ hy)) x hx

end LabelledRuns
