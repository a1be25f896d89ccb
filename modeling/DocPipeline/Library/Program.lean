import Mathlib.Tactic

/-!
# Programs that call, raise and clean up

A program is a finite tree of calls. Each call is answered by a value or by
an exception, and the rest of the program sees which. `attempt` is the one
sequencing operation; `try`, `finally` and ordinary binding are instances.
A machine is the same control flow with every waiting point given a name.
-/

set_option autoImplicit false

namespace EffectProgram

variable {ι : Type} {ρ : ι → Type} {ε α β σ : Type}

inductive Prog (ι : Type) (ρ : ι → Type) (ε α : Type) where
  | ret (a : α)
  | raise (e : ε)
  | call (c : ι) (k : Except ε (ρ c) → Prog ι ρ ε α)

def ofExcept : Except ε α → Prog ι ρ ε α
  | .ok a => .ret a
  | .error e => .raise e

def perform (c : ι) : Prog ι ρ ε (ρ c) := .call c ofExcept

def attempt : Prog ι ρ ε α → (Except ε α → Prog ι ρ ε β) → Prog ι ρ ε β
  | .ret a, f => f (.ok a)
  | .raise e, f => f (.error e)
  | .call c k, f => .call c (fun r => attempt (k r) f)

def andThen (p : Prog ι ρ ε α) (f : α → Prog ι ρ ε β) : Prog ι ρ ε β :=
  attempt p fun
    | .ok a => f a
    | .error e => .raise e

def tryExcept (p : Prog ι ρ ε α) (h : ε → Prog ι ρ ε α) : Prog ι ρ ε α :=
  attempt p fun
    | .ok a => .ret a
    | .error e => h e

def withFinally (p : Prog ι ρ ε α) (cleanup : Prog ι ρ ε Unit) : Prog ι ρ ε α :=
  attempt p fun r => andThen cleanup fun _ => ofExcept r

instance : Monad (Prog ι ρ ε) where
  pure := .ret
  bind := andThen

theorem bind_eq (p : Prog ι ρ ε α) (f : α → Prog ι ρ ε β) : (p >>= f) = andThen p f := rfl

theorem pure_eq (a : α) : (pure a : Prog ι ρ ε α) = .ret a := rfl

theorem attempt_assoc {γ : Type} (p : Prog ι ρ ε α) (f : Except ε α → Prog ι ρ ε β)
    (g : Except ε β → Prog ι ρ ε γ) :
    attempt (attempt p f) g = attempt p (fun r => attempt (f r) g) := by
  induction p with
  | ret a => rfl
  | raise e => rfl
  | call c k ih => exact congrArg (Prog.call c) (funext ih)

/-- Run a program in a world that answers its calls one after the other;
`none` when a call is not answered. -/
def evaluate {ω : Type} (answer : ω → (c : ι) → Option (Except ε (ρ c) × ω)) :
    Prog ι ρ ε α → ω → Option (Except ε α × ω)
  | .ret a, w => some (.ok a,w)
  | .raise e, w => some (.error e,w)
  | .call c k, w => (answer w c).bind fun x => evaluate answer (k x.1) x.2

theorem evaluate_attempt {ω : Type} (answer : ω → (c : ι) → Option (Except ε (ρ c) × ω))
    (p : Prog ι ρ ε α) (f : Except ε α → Prog ι ρ ε β) (w : ω) :
    evaluate answer (attempt p f) w =
      (evaluate answer p w).bind fun x => evaluate answer (f x.1) x.2 := by
  induction p generalizing w with
  | ret a => rfl
  | raise e => rfl
  | call c k ih =>
    simp only [attempt, evaluate, Option.bind_assoc]
    exact congrArg (Option.bind (answer w c)) (funext fun x => ih x.1 x.2)

/-- What a named waiting point does: it has ended, or it makes one call and
moves to a waiting point chosen by the answer. -/
inductive Node (ι : Type) (ρ : ι → Type) (ε α σ : Type) where
  | ended (r : Except ε α)
  | calls (c : ι) (k : Except ε (ρ c) → σ)

def unfold (code : σ → Prog ι ρ ε α) : Node ι ρ ε α σ → Prog ι ρ ε α
  | .ended r => ofExcept r
  | .calls c k => .call c (fun r => code (k r))

/-- `view` names the waiting points of `code`: at each of them the program
is one call followed by the program of the waiting point it moves to. -/
def Names (code : σ → Prog ι ρ ε α) (view : σ → Node ι ρ ε α σ) : Prop :=
  ∀ s, code s = unfold code (view s)

abbrev Answers (ι : Type) (ρ : ι → Type) (ε : Type) := List ((c : ι) × Except ε (ρ c))

inductive Follows : Prog ι ρ ε α → Answers ι ρ ε → Prog ι ρ ε α → Prop
  | nil (p : Prog ι ρ ε α) : Follows p [] p
  | cons {c : ι} {k : Except ε (ρ c) → Prog ι ρ ε α} {r : Except ε (ρ c)}
      {as : Answers ι ρ ε} {q : Prog ι ρ ε α} (h : Follows (k r) as q) :
      Follows (.call c k) (⟨c,r⟩::as) q

inductive Moves (view : σ → Node ι ρ ε α σ) : σ → Answers ι ρ ε → σ → Prop
  | nil (s : σ) : Moves view s [] s
  | cons {c : ι} {k : Except ε (ρ c) → σ} {r : Except ε (ρ c)} {as : Answers ι ρ ε}
      {s s' : σ} (hv : view s = .calls c k) (h : Moves view (k r) as s') :
      Moves view s (⟨c,r⟩::as) s'

/-- Every partial execution of a program is a walk of the machine that names
it, and every walk is a partial execution. -/
theorem follows_iff (code : σ → Prog ι ρ ε α) (view : σ → Node ι ρ ε α σ)
    (hn : Names code view) (as : Answers ι ρ ε) (s : σ) (q : Prog ι ρ ε α) :
    Follows (code s) as q ↔ ∃ s', Moves view s as s' ∧ q = code s' := by
  induction as generalizing s with
  | nil =>
    constructor
    · intro h
      refine ⟨s,.nil s,?_⟩
      generalize code s = p at h
      cases h
      rfl
    · rintro ⟨s',h,rfl⟩
      cases h
      exact .nil _
  | cons a as ih =>
    have hs := hn s
    constructor
    · intro h
      rw [hs] at h
      cases hv : view s with
      | ended r => cases r <;> simp only [hv, unfold, ofExcept] at h <;> cases h
      | calls c k =>
        simp only [hv, unfold] at h
        cases h with
        | cons h =>
          obtain ⟨s',hm,hq⟩ := (ih _).mp h
          exact ⟨s',.cons hv hm,hq⟩
    · rintro ⟨s',h,rfl⟩
      cases h with
      | cons hv hm =>
        rw [hs, hv]
        exact .cons ((ih _).mpr ⟨s',hm,rfl⟩)

end EffectProgram
