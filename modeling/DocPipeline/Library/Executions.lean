import DocPipeline.Library.Program

/-!
# Complete executions and what becomes of failures

A call is answered by a value or by a fault of its own type, which reaches
the program as an exception. `Ends` relates a program to the answers of one
complete execution and to its result. `Reports` says that the result tells
the failures among the answers apart: an unhandled failure escapes, and
handled ones end in an exception of a known kind. Sequencing keeps this.
-/

set_option autoImplicit false

namespace EffectProgram

variable {ι : Type} {ρ : ι → Type} {δ ε α β : Type}

abbrev Answered (ι : Type) (ρ : ι → Type) (δ : Type) := (c : ι) × Except δ (ρ c)

inductive Ends (inj : δ → ε) : Prog ι ρ ε α → List (Answered ι ρ δ) → Except ε α → Prop
  | ret (a : α) : Ends inj (.ret a) [] (.ok a)
  | raise (e : ε) : Ends inj (.raise e) [] (.error e)
  | call {c : ι} {k : Except ε (ρ c) → Prog ι ρ ε α} (r : Except δ (ρ c))
      {as : List (Answered ι ρ δ)} {x : Except ε α} (h : Ends inj (k (r.mapError inj)) as x) :
      Ends inj (.call c k) (⟨c,r⟩::as) x

section Sequencing
variable {inj : δ → ε} {as : List (Answered ι ρ δ)}

theorem ends_ofExcept {r x : Except ε α} (h : Ends inj (ofExcept r : Prog ι ρ ε α) as x) :
    as = [] ∧ x = r := by
  cases r <;> cases h <;> exact ⟨rfl,rfl⟩

theorem ends_attempt {p : Prog ι ρ ε α} {f : Except ε α → Prog ι ρ ε β} {x : Except ε β}
    (h : Ends inj (attempt p f) as x) :
    ∃ as₁ as₂ r, as = as₁++as₂ ∧ Ends inj p as₁ r ∧ Ends inj (f r) as₂ x := by
  induction p generalizing as with
  | ret a => exact ⟨[],as,.ok a,rfl,.ret a,h⟩
  | raise e => exact ⟨[],as,.error e,rfl,.raise e,h⟩
  | call c k ih =>
    cases h with
    | call r h =>
      obtain ⟨as₁,as₂,y,rfl,hp,hf⟩ := ih _ h
      exact ⟨_,as₂,y,rfl,.call r hp,hf⟩

theorem ends_perform {c : ι} {x : Except ε (ρ c)}
    (h : Ends inj (perform c : Prog ι ρ ε (ρ c)) as x) :
    ∃ r : Except δ (ρ c), as = [⟨c,r⟩] ∧ x = r.mapError inj := by
  cases h with
  | call r h =>
    obtain ⟨rfl,rfl⟩ := ends_ofExcept h
    exact ⟨r,rfl,rfl⟩

end Sequencing

/-- What an analysis of failures distinguishes: the answers a library can
give at all, those that are failures, those of them that are not handled,
and the two kinds of exception they end in. -/
structure Analysis (ι : Type) (ρ : ι → Type) (δ ε : Type) where
  inj : δ → ε
  documented : Answered ι ρ δ → Prop
  fails : Answered ι ρ δ → Prop
  unhandled : Answered ι ρ δ → Prop
  unhandled_fails : ∀ a, unhandled a → fails a
  handled : ε → Prop
  escaped : ε → Prop

namespace Analysis
variable (A : Analysis ι ρ δ ε)

structure Tells (as : List (Answered ι ρ δ)) (x : Except ε α) : Prop where
  escapes : (∃ a ∈ as, A.unhandled a) → ∃ e, x = .error e ∧ A.escaped e
  handles : (∃ a ∈ as, A.fails a) → (∀ a ∈ as, ¬ A.unhandled a) → ∃ e, x = .error e ∧ A.handled e

def Reports (p : Prog ι ρ ε α) : Prop :=
  ∀ as x, Ends A.inj p as x → (∀ a ∈ as, A.documented a) → A.Tells as x

variable {A} {p : Prog ι ρ ε α} {as as' : List (Answered ι ρ δ)}

theorem Tells.of_not_fails (h : ∀ a ∈ as, ¬ A.fails a) (x : Except ε α) : A.Tells as x where
  escapes := by
    rintro ⟨a,ha,hu⟩
    exact absurd (A.unhandled_fails a hu) (h a ha)
  handles := by
    rintro ⟨a,ha,hf⟩
    exact absurd hf (h a ha)

theorem Tells.of_escaped {e : ε} (hu : ∃ a ∈ as, A.unhandled a) (he : A.escaped e) :
    A.Tells as (.error e : Except ε α) where
  escapes _ := ⟨e,rfl,he⟩
  handles _ hno := by
    obtain ⟨a,ha,h⟩ := hu
    exact absurd h (hno a ha)

theorem Tells.of_handled {e : ε} (hu : ∀ a ∈ as, ¬ A.unhandled a) (he : A.handled e) :
    A.Tells as (.error e : Except ε α) where
  escapes := by
    rintro ⟨a,ha,h⟩
    exact absurd h (hu a ha)
  handles _ _ := ⟨e,rfl,he⟩

/-- An execution that returns has seen no failure. -/
theorem Tells.not_fails {a : α} (h : A.Tells as (.ok a : Except ε α)) :
    ∀ x ∈ as, ¬ A.fails x := by
  intro x hx hf
  by_cases hu : ∃ y ∈ as, A.unhandled y
  · obtain ⟨e,he,-⟩ := h.escapes hu
    cases he
  · obtain ⟨e,he,-⟩ := h.handles ⟨x,hx,hf⟩ (fun y hy hyu => hu ⟨y,hy,hyu⟩)
    cases he

theorem Tells.append_left {x : Except ε α} (h : ∀ a ∈ as, ¬ A.fails a) (h' : A.Tells as' x) :
    A.Tells (as++as') x where
  escapes := by
    rintro ⟨a,ha,hu⟩
    rcases List.mem_append.mp ha with ha | ha
    · exact absurd (A.unhandled_fails a hu) (h a ha)
    · exact h'.escapes ⟨a,ha,hu⟩
  handles := by
    rintro ⟨a,ha,hf⟩ hno
    refine h'.handles ⟨a,?_,hf⟩ (fun b hb => hno b (List.mem_append_right _ hb))
    rcases List.mem_append.mp ha with ha | ha
    · exact absurd hf (h a ha)
    · exact ha

theorem Tells.append_right {x : Except ε α} (h : A.Tells as x) (h' : ∀ a ∈ as', ¬ A.fails a) :
    A.Tells (as++as') x where
  escapes := by
    rintro ⟨a,ha,hu⟩
    rcases List.mem_append.mp ha with ha | ha
    · exact h.escapes ⟨a,ha,hu⟩
    · exact absurd (A.unhandled_fails a hu) (h' a ha)
  handles := by
    rintro ⟨a,ha,hf⟩ hno
    refine h.handles ⟨a,?_,hf⟩ (fun b hb => hno b (List.mem_append_left _ hb))
    rcases List.mem_append.mp ha with ha | ha
    · exact ha
    · exact absurd hf (h' a ha)

/-- The same answers and the same exception, at another type. -/
theorem Tells.raise {e : ε} (h : A.Tells as (.error e : Except ε α)) :
    A.Tells as (.error e : Except ε β) where
  escapes hu := by
    obtain ⟨e',he,hx⟩ := h.escapes hu
    cases he
    exact ⟨e,rfl,hx⟩
  handles hf hno := by
    obtain ⟨e',he,hx⟩ := h.handles hf hno
    cases he
    exact ⟨e,rfl,hx⟩

theorem reports_ret (a : α) : A.Reports (.ret a : Prog ι ρ ε α) := by
  intro as x h _
  cases h
  exact .of_not_fails (by simp) _

theorem reports_raise (e : ε) : A.Reports (.raise e : Prog ι ρ ε α) := by
  intro as x h _
  cases h
  exact .of_not_fails (by simp) _

theorem Reports.andThen {f : α → Prog ι ρ ε β} (hp : A.Reports p) (hf : ∀ a, A.Reports (f a)) :
    A.Reports (andThen p f) := by
  intro as x h hdoc
  obtain ⟨as₁,as₂,r,rfl,h₁,h₂⟩ := ends_attempt h
  have ht := hp as₁ r h₁ (fun a ha => hdoc a (List.mem_append_left _ ha))
  cases r with
  | ok a =>
    have ht₂ := hf a as₂ x h₂ (fun b hb => hdoc b (List.mem_append_right _ hb))
    exact Tells.append_left ht.not_fails ht₂
  | error e =>
    cases h₂
    rw [List.append_nil]
    exact ht.raise

variable (A) in
def Strict (p : Prog ι ρ ε α) : Prop :=
  ∀ as x, Ends A.inj p as x → ((∃ a, x = .ok a) ∧ ∀ b ∈ as, ¬ A.fails b) ∨
    (∃ e, x = .error e ∧ A.escaped e) ∧ ∃ b ∈ as, A.unhandled b

theorem strict_perform {c : ι} (hok : ∀ v, ¬ A.fails ⟨c,.ok v⟩)
    (hbad : ∀ f, A.unhandled ⟨c,.error f⟩) (hesc : ∀ f, A.escaped (A.inj f)) :
    A.Strict (perform c : Prog ι ρ ε (ρ c)) := by
  intro as x h
  obtain ⟨r,rfl,rfl⟩ := ends_perform h
  cases r with
  | ok v =>
    refine Or.inl ⟨⟨v,rfl⟩,?_⟩
    intro a ha
    obtain rfl := List.mem_singleton.mp ha
    exact hok v
  | error f => exact Or.inr ⟨⟨_,rfl,hesc f⟩,_,List.mem_singleton_self _,hbad f⟩

theorem Strict.reports (h : A.Strict p) : A.Reports p := by
  intro as x hx _
  rcases h as x hx with ⟨-,hno⟩ | ⟨⟨e,rfl,he⟩,hu⟩
  · exact .of_not_fails hno x
  · exact .of_escaped hu he

section Cleanup
variable {γ : Type} {cleanup : Prog ι ρ ε γ}

/-- A strict cleanup before the result of the execution so far is taken up. -/
theorem Tells.cleaned {x : Except ε β} {f : γ → Prog ι ρ ε β} (hc : A.Strict cleanup)
    (hf : ∀ a bs y, Ends A.inj (f a) bs y → bs = [] ∧ A.Tells as y)
    (hx : Ends A.inj (EffectProgram.andThen cleanup f) as' x) : A.Tells (as++as') x := by
  obtain ⟨as₁,as₂,y,rfl,h₁,h₂⟩ := ends_attempt hx
  rcases hc as₁ y h₁ with ⟨⟨a,rfl⟩,hno⟩ | ⟨⟨e,rfl,he⟩,b,hb,hu⟩
  · obtain ⟨rfl,ht⟩ := hf a as₂ x h₂
    rw [List.append_nil]
    exact ht.append_right hno
  · cases h₂
    exact .of_escaped ⟨b,by simp [hb],hu⟩ he

/-- `except: cleanup; raise`. -/
theorem Reports.onError (hp : A.Reports p) (hc : A.Strict cleanup) :
    A.Reports (tryExcept p fun e => EffectProgram.andThen cleanup fun _ => .raise e) := by
  intro as x h hdoc
  obtain ⟨as₁,as₂,r,rfl,h₁,h₂⟩ := ends_attempt h
  have ht := hp as₁ r h₁ (fun a ha => hdoc a (List.mem_append_left _ ha))
  cases r with
  | ok a =>
    cases h₂
    rw [List.append_nil]
    exact ht
  | error e =>
    refine Tells.cleaned hc ?_ h₂
    intro _ bs y hy
    cases hy
    exact ⟨rfl,ht⟩

/-- `finally: cleanup`. -/
theorem Reports.withFinally {cleanup : Prog ι ρ ε Unit} (hp : A.Reports p)
    (hc : A.Strict cleanup) : A.Reports (withFinally p cleanup) := by
  intro as x h hdoc
  obtain ⟨as₁,as₂,r,rfl,h₁,h₂⟩ := ends_attempt h
  have ht := hp as₁ r h₁ (fun a ha => hdoc a (List.mem_append_left _ ha))
  refine Tells.cleaned hc ?_ h₂
  intro _ bs y hy
  obtain ⟨rfl,rfl⟩ := ends_ofExcept hy
  exact ⟨rfl,ht⟩

end Cleanup

end Analysis

end EffectProgram
