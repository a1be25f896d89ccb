import Mathlib

/-!
# Collapsing runs of a sampled sequence

An observer that samples a value and keeps a sample only when a key of it has
changed ends up with the first sample of every run. With the whole value as
the key this is `List.destutter (· ≠ ·)`; with a coarser key, samples are lost
exactly where the value changes and the key does not.
-/

set_option autoImplicit false

namespace Stuttering

variable {α β : Type} [DecidableEq β] (f : α → β)

def keep (seen : List α) (x : α) : List α :=
  if seen.getLast?.map f = some (f x) then seen else seen++[x]

def collapse (xs : List α) : List α := xs.foldl (keep f) []

def finalRun (xs : List α) : List α :=
  xs.rtakeWhile (fun x => xs.getLast?.map f = some (f x))

theorem collapse_concat (xs : List α) (x : α) :
    collapse f (xs++[x]) = keep f (collapse f xs) x := by
  rw [collapse, List.foldl_append]
  rfl

theorem foldl_keep (seen : List α) (a : α) (xs : List α) :
    xs.foldl (keep f) (seen++[a]) = seen++xs.destutter' (fun x y => f x ≠ f y) a := by
  induction xs generalizing seen a with
  | nil => rfl
  | cons x xs ih =>
    by_cases h : f a = f x
    · rw [List.foldl_cons, keep, if_pos (by simp [h]), ih,
        List.destutter'_cons_neg (h := by simpa using h)]
    · rw [List.foldl_cons, keep, if_neg (by simpa using h), ih,
        List.destutter'_cons_pos (h := h), List.append_assoc, List.singleton_append]

theorem collapse_eq (xs : List α) : collapse f xs = xs.destutter (fun x y => f x ≠ f y) := by
  cases xs with
  | nil => rfl
  | cons a xs => exact foldl_keep f [] a xs

/-- The key of the last sample kept is the key of the last sample. -/
theorem key_getLast?_collapse (xs : List α) :
    (collapse f xs).getLast?.map f = xs.getLast?.map f := by
  induction xs using List.reverseRecOn with
  | nil => rfl
  | append_singleton xs x ih =>
    rw [collapse_concat, keep]
    split
    · rename_i h
      rw [h, List.getLast?_concat, Option.map_some]
    · rw [List.getLast?_concat, List.getLast?_concat]

theorem finalRun_concat (xs : List α) (x : α) :
    finalRun f (xs++[x]) = if xs.getLast?.map f = some (f x) then finalRun f xs++[x] else [x] := by
  have hx : (xs++[x]).getLast?.map f = some (f x) := by simp
  simp only [finalRun, hx, Option.some.injEq]
  rw [List.rtakeWhile_concat_pos _ _ _ (by simp)]
  split
  · rename_i h
    simp only [h, Option.some.injEq]
  · rename_i h
    rw [List.rtakeWhile_eq_nil_iff.mpr]
    · rfl
    · intro hne
      rw [List.getLast?_eq_some_getLast hne, Option.map_some, Option.some.injEq] at h
      simpa using fun he => h he.symm

/-- The last sample kept is the first one of the final run. -/
theorem getLast?_collapse (xs : List α) : (collapse f xs).getLast? = (finalRun f xs).head? := by
  induction xs using List.reverseRecOn with
  | nil => rfl
  | append_singleton xs x ih =>
    rw [collapse_concat, finalRun_concat, keep, key_getLast?_collapse]
    split
    · rename_i h
      obtain ⟨z,hz,-⟩ := Option.map_eq_some_iff.mp h
      rw [ih]
      cases hr : finalRun f xs with
      | nil =>
        have hlast := key_getLast?_collapse f xs
        rw [ih, hr, h] at hlast
        cases hlast
      | cons y ys => rfl
    · rw [List.getLast?_concat, List.head?_singleton]

/-- Samples with the same key are interchangeable for how much is kept after
them. -/
theorem length_destutter'_of_key {a b : α} (h : f a = f b) (xs : List α) :
    (xs.destutter' (fun x y => f x ≠ f y) a).length =
      (xs.destutter' (fun x y => f x ≠ f y) b).length := by
  have : IsEquiv α (fun x y => f x ≠ f y)ᶜ :=
    { refl := fun x => not_not_intro rfl
      symm := fun x y hxy => not_not_intro (not_not.mp hxy).symm
      trans := fun x y z hxy hyz => not_not_intro ((not_not.mp hxy).trans (not_not.mp hyz)) }
  exact List.length_destutter'_congr xs (not_not_intro h)

section Exact
variable [DecidableEq α]

theorem mem_destutter' (a : α) (xs : List α) :
    ∀ x ∈ a::xs, x ∈ xs.destutter' (· ≠ ·) a := by
  induction xs generalizing a with
  | nil => simp
  | cons b xs ih =>
    intro x hx
    by_cases hab : a = b
    · subst hab
      rw [List.destutter'_cons_neg (h := by simp)]
      exact ih a x (by simpa using hx)
    · rw [List.destutter'_cons_pos (h := hab)]
      rcases List.mem_cons.mp hx with rfl | hx
      · exact List.mem_cons_self
      · exact List.mem_cons_of_mem _ (ih b x hx)

theorem mem_destutter {xs : List α} : ∀ x ∈ xs, x ∈ xs.destutter (· ≠ ·) := by
  cases xs with
  | nil => simp
  | cons a xs => exact mem_destutter' a xs

theorem getLast?_destutter (xs : List α) :
    (xs.destutter (· ≠ ·)).getLast? = xs.getLast? := by
  have h := key_getLast?_collapse id xs
  simpa [collapse_eq] using h

theorem length_destutter'_le (a : α) (xs : List α) :
    (xs.destutter' (fun x y => f x ≠ f y) a).length ≤ (xs.destutter' (· ≠ ·) a).length := by
  induction xs generalizing a with
  | nil => exact le_rfl
  | cons b xs ih =>
    by_cases hf : f a = f b
    · rw [List.destutter'_cons_neg (h := by simpa using hf), length_destutter'_of_key f hf]
      by_cases hab : a = b
      · rw [List.destutter'_cons_neg (h := by simpa using hab), hab]
        exact ih b
      · rw [List.destutter'_cons_pos (h := hab), List.length_cons]
        exact (ih b).trans (Nat.le_succ _)
    · have hab : a ≠ b := fun h => hf (congrArg f h)
      rw [List.destutter'_cons_pos (h := hf), List.destutter'_cons_pos (h := hab)]
      exact Nat.succ_le_succ (ih b)

theorem destutter'_eq_iff (a : α) (xs : List α) :
    xs.destutter' (fun x y => f x ≠ f y) a = xs.destutter' (· ≠ ·) a ↔
      (a::xs).IsChain (fun x y => f x = f y → x = y) := by
  induction xs generalizing a with
  | nil => simp
  | cons b xs ih =>
    rw [List.isChain_cons_cons, ← ih b]
    by_cases hf : f a = f b
    · by_cases hab : a = b
      · subst hab
        rw [List.destutter'_cons_neg (h := by simp), List.destutter'_cons_neg (h := by simp)]
        simp
      · -- the coarse key drops `b`, which is not equal to `a`: one sample is missing for good
        rw [List.destutter'_cons_neg (h := by simpa using hf), List.destutter'_cons_pos (h := hab)]
        have hlen := length_destutter'_le f b xs
        rw [← length_destutter'_of_key f hf] at hlen
        constructor
        · intro h
          have := congrArg List.length h
          rw [List.length_cons] at this
          omega
        · rintro ⟨h,-⟩
          exact absurd (h hf) hab
    · have hab : a ≠ b := fun h => hf (congrArg f h)
      rw [List.destutter'_cons_pos (h := hf), List.destutter'_cons_pos (h := hab)]
      simp [hf]

/-- Watching a key shows every change of the value exactly when the value
never changes between two neighbours with the same key. -/
theorem collapse_eq_destutter_iff (xs : List α) :
    collapse f xs = xs.destutter (· ≠ ·) ↔ xs.IsChain (fun x y => f x = f y → x = y) := by
  rw [collapse_eq]
  cases xs with
  | nil => simp
  | cons a xs => exact destutter'_eq_iff f a xs

end Exact

end Stuttering
