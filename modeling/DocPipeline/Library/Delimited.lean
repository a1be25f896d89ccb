import Mathlib
import DocPipeline.Library.Digits

/-!
# Fields between separators

A line of fields, each but the last followed by the separator, splits back
into its fields as far as they do not contain the separator. The rest is what
reading the line as text does to its last field: line ends are normalised and
blanks at the end are dropped.
-/

set_option autoImplicit false

namespace Delimited
open FixedDigits

section Split
variable {α : Type} [DecidableEq α]

def terminated (sep : α) (fields : List (List α)) : List α := fields.flatMap (· ++ [sep])

theorem splitOn_terminated {sep : α} {fields : List (List α)} (h : ∀ f ∈ fields, sep ∉ f)
    (rest : List α) :
    (terminated sep fields ++ rest).splitOn sep = fields ++ rest.splitOn sep := by
  induction fields with
  | nil => rfl
  | cons f fields ih =>
    have ht := ih (fun g hg => h g (List.mem_cons_of_mem _ hg))
    have hf : ∀ x ∈ f, (x == sep) = false := by
      intro x hx
      simp only [beq_eq_false_iff_ne]
      rintro rfl
      exact h f List.mem_cons_self hx
    simp only [List.splitOn_eq_splitOnP] at ht ⊢
    simp only [terminated, List.flatMap_cons, List.append_assoc, List.cons_append,
      List.nil_append] at ht ⊢
    rw [List.splitOnP_append_cons_of_forall_mem hf sep (by simp), ht]

theorem splitOn_takeWhile (sep : α) (xs : List α) :
    (xs.splitOn sep)[0]? = some (xs.takeWhile (· ≠ sep)) := by
  induction xs with
  | nil => rfl
  | cons x xs ih =>
    rw [List.splitOn_cons_eq_if_modifyHead]
    by_cases hx : x = sep
    · simp [hx]
    · cases hs : xs.splitOn sep with
      | nil => exact absurd hs (List.splitOn_ne_nil sep xs)
      | cons f fs =>
        rw [hs] at ih
        have hf : f = xs.takeWhile (· ≠ sep) := by simpa using ih
        simp [hx, hf]

theorem takeWhile_ne_eq_self {sep : α} {xs : List α} : xs.takeWhile (· ≠ sep) = xs ↔ sep ∉ xs := by
  rw [List.takeWhile_eq_self_iff]
  constructor
  · intro h hs
    simpa using h sep hs
  · intro h x hx
    simp only [ne_eq, decide_eq_true_eq]
    rintro rfl
    exact h hx

end Split

section Strip

/-- Leading and trailing text that does not begin or end blank is kept. -/
theorem strip_append {set : List Char} {c : Char} {mid rest : List Char} {d : Char} (hc : c ∉ set)
    (hd : d ∉ set) :
    strip set (c::(mid++d::rest)) = c::(mid++d::rest.rdropWhile (· ∈ set)) := by
  have hhead : (c::(mid++d::rest)).dropWhile (· ∈ set) = c::(mid++d::rest) := by simp [hc]
  rw [strip, hhead, ← List.rdropWhile]
  clear hhead
  induction rest using List.reverseRecOn with
  | nil =>
    have : c::(mid++[d]) = (c::mid)++[d] := rfl
    rw [this, List.rdropWhile_concat_neg _ _ _ (by simpa using hd)]
    rfl
  | append_singleton rest x ih =>
    have : c::(mid++d::(rest++[x])) = (c::(mid++d::rest))++[x] := by simp
    rw [this, List.rdropWhile_concat, List.rdropWhile_concat, ih]
    split <;> simp

theorem strip_terminated {set : List Char} {sep c : Char} (hc : c ∉ set) (hsep : sep ∉ set)
    (f : List Char) (fields : List (List Char)) (rest : List Char) :
    strip set (terminated sep ((c::f)::fields)++rest) =
      terminated sep ((c::f)::fields)++rest.rdropWhile (· ∈ set) := by
  obtain ⟨mid,hmid⟩ : ∃ mid, terminated sep ((c::f)::fields) = c::(mid++[sep]) := by
    induction fields using List.reverseRecOn with
    | nil => exact ⟨f,by simp [terminated]⟩
    | append_singleton fields g _ =>
      exact ⟨f++sep::(terminated sep fields++g),by simp [terminated]⟩
  have hs : ∀ ys : List Char, c::(mid++[sep])++ys = c::(mid++sep::ys) := by simp
  rw [hmid, hs, hs, strip_append hc hsep]

def newlines : List Char → List Char
  | '\r':: '\n'::cs => '\n'::newlines cs
  | '\r'::cs => '\n'::newlines cs
  | c::cs => c::newlines cs
  | [] => []

theorem newlines_append {xs : List Char} (h : '\r' ∉ xs) (ys : List Char) :
    newlines (xs++ys) = xs++newlines ys := by
  induction xs with
  | nil => rfl
  | cons x xs ih =>
    have hx : x ≠ '\r' := fun he => h (he ▸ List.mem_cons_self)
    have ht := ih (fun hm => h (List.mem_cons_of_mem _ hm))
    rw [List.cons_append, newlines, ht]
    · rfl
    · exact fun _ he => absurd he hx
    · exact hx

theorem newlines_plain (xs : List Char) : '\r' ∉ newlines xs := by
  fun_induction newlines xs with
  | case1 cs ih => simp [ih]
  | case2 cs h ih => simp [ih]
  | case3 c cs h h' ih =>
    simp only [List.mem_cons, not_or]
    exact ⟨fun he => h' he.symm,ih⟩
  | case4 => simp

/-- A last field is read back as it is when it has no separator, no carriage
return and no blank at its end. -/
theorem last_field_iff {set : List Char} (hn : '\n' ∈ set) (sep : Char) (xs : List Char) :
    ((newlines (xs++['\n'])).rdropWhile (· ∈ set)).takeWhile (· ≠ sep) = xs ↔
      sep ∉ xs ∧ '\r' ∉ xs ∧ ∀ c, xs.getLast? = some c → c ∉ set := by
  have hplain : '\r' ∉ xs →
      (newlines (xs++['\n'])).rdropWhile (· ∈ set) = xs.rdropWhile (· ∈ set) := by
    intro hr
    rw [newlines_append hr, show newlines ['\n'] = ['\n'] from rfl,
      List.rdropWhile_concat_pos _ _ _ (by simpa using hn)]
  have hself : xs.rdropWhile (· ∈ set) = xs ↔ ∀ c, xs.getLast? = some c → c ∉ set := by
    rw [List.rdropWhile_eq_self_iff]
    constructor
    · intro h c hc
      obtain ⟨ys,rfl⟩ := List.getLast?_eq_some_iff.mp hc
      simpa using h (by simp)
    · intro h hne
      simpa using h _ (List.getLast?_eq_some_getLast hne)
  constructor
  · intro h
    have hs : sep ∉ xs := by
      rw [← h]
      intro hm
      simpa using List.mem_takeWhile_imp hm
    have hr : '\r' ∉ xs := by
      rw [← h]
      intro hm
      exact newlines_plain _ ((List.rdropWhile_prefix _ _).subset
        ((List.takeWhile_prefix _).subset hm))
    rw [hplain hr] at h
    have hsub : sep ∉ xs.rdropWhile (· ∈ set) := fun hm => hs ((List.rdropWhile_prefix _ _).subset hm)
    rw [takeWhile_ne_eq_self.mpr hsub] at h
    exact ⟨hs,hr,hself.mp h⟩
  · rintro ⟨hs,hr,hl⟩
    rw [hplain hr, hself.mpr hl]
    exact takeWhile_ne_eq_self.mpr hs

end Strip

end Delimited
