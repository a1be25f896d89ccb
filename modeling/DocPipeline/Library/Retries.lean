import Mathlib.Tactic

/-!
# A bounded retry loop

Attempts are numbered from one, and `f n` is the failure of attempt `n`, if
it fails. The loop stops at the first success or after a fixed number of
attempts, and remembers the failure of the attempt before.
-/

set_option autoImplicit false

namespace BoundedRetry

variable {τ : Type} {f : ℕ → Option τ}

inductive Ending (τ : Type) where
  | succeeded (attempt : ℕ) (last : Option τ)
  | gaveUp (attempt : ℕ) (last : Option τ)
  deriving DecidableEq

def attemptFrom (f : ℕ → Option τ) (last : Option τ) (n : ℕ) : ℕ → Ending τ
  | 0 => match f n with
    | none => .succeeded n last
    | some e => .gaveUp n (some e)
  | left+1 => match f n with
    | none => .succeeded n last
    | some e => attemptFrom f (some e) (n+1) left

def retryLoop (f : ℕ → Option τ) (most : ℕ) : Ending τ := attemptFrom f none 1 (most-1)

def report (f : ℕ → Option τ) : ℕ → Option τ
  | 0 => none
  | n+1 => f (n+1)

theorem report_of_pos {n : ℕ} (h : 1 ≤ n) : report f n = f n := by
  obtain ⟨m,rfl⟩ : ∃ m, n = m+1 := ⟨n-1,by omega⟩
  rfl

theorem attemptFrom_success {last : Option τ} {n : ℕ} (left : ℕ) (h : f n = none) :
    attemptFrom f last n left = .succeeded n last := by
  cases left <;> simp [attemptFrom, h]

/-- After `n` failures the loop is at attempt `n+1`. -/
theorem retryLoop_resume {n most : ℕ} (hn : n < most) (hf : ∀ i, 1 ≤ i → i ≤ n → f i ≠ none) :
    retryLoop f most = attemptFrom f (report f n) (n+1) (most-1-n) := by
  induction n with
  | zero => rfl
  | succ n ih =>
    rw [ih (by omega) (fun i hi hle => hf i hi (by omega))]
    obtain ⟨e,he⟩ := Option.ne_none_iff_exists'.mp (hf (n+1) (by omega) le_rfl)
    obtain ⟨left,hl⟩ : ∃ left, most-1-n = left+1 := ⟨most-1-n-1,by omega⟩
    have hl' : most-1-(n+1) = left := by omega
    rw [hl, hl']
    simp [attemptFrom, he, report]

theorem retryLoop_success {k most : ℕ} (hk : 1 ≤ k) (hle : k ≤ most)
    (hf : ∀ i, 1 ≤ i → i < k → f i ≠ none) (hs : f k = none) :
    retryLoop f most = .succeeded k (report f (k-1)) := by
  obtain ⟨n,rfl⟩ : ∃ n, k = n+1 := ⟨k-1,by omega⟩
  rw [retryLoop_resume (n := n) (by omega) (fun i hi hle => hf i hi (by omega))]
  exact attemptFrom_success _ hs

theorem retryLoop_failure {most : ℕ} (hm : 1 ≤ most) (hf : ∀ i, 1 ≤ i → i ≤ most → f i ≠ none) :
    retryLoop f most = .gaveUp most (f most) := by
  obtain ⟨n,rfl⟩ : ∃ n, most = n+1 := ⟨most-1,by omega⟩
  rw [retryLoop_resume (n := n) (by omega) (fun i hi hle => hf i hi (by omega))]
  obtain ⟨e,he⟩ := Option.ne_none_iff_exists'.mp (hf (n+1) hm le_rfl)
  have hl : n+1-1-n = 0 := by omega
  rw [hl]
  simp [attemptFrom, he]

end BoundedRetry
