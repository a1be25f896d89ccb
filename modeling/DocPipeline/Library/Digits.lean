import Mathlib.Tactic

/-!
# Numbers written with a fixed number of digits

Most significant digit first, leading zeros kept. Reading the digits back
gives the number, so writing is injective below the capacity of the width.
The second half is the text surgery that readers perform around the digits.
-/

set_option autoImplicit false

namespace FixedDigits

def digits (b : ℕ) : ℕ → ℕ → List ℕ
  | 0, _ => []
  | w+1, n => digits b w (n/b) ++ [n%b]

def value (b : ℕ) (ds : List ℕ) : ℕ := ds.foldl (fun acc d => b*acc+d) 0

theorem length_digits (b w n : ℕ) : (digits b w n).length = w := by
  induction w generalizing n with
  | zero => rfl
  | succ w ih => simp [digits, ih]

theorem digits_lt (b w n : ℕ) (hb : 0 < b) : ∀ d ∈ digits b w n, d < b := by
  induction w generalizing n with
  | zero => simp [digits]
  | succ w ih =>
    intro d hd
    rcases List.mem_append.mp hd with h | h
    · exact ih _ d h
    · obtain rfl : d = n%b := by simpa using h
      exact Nat.mod_lt _ hb

theorem value_digits (b w n : ℕ) (h : n < b^w) : value b (digits b w n) = n := by
  induction w generalizing n with
  | zero =>
    obtain rfl : n = 0 := by simpa using h
    rfl
  | succ w ih =>
    have hq : n/b < b^w := Nat.div_lt_of_lt_mul (by rwa [pow_succ, mul_comm] at h)
    have hv := ih (n/b) hq
    simp only [value] at hv
    simp only [digits, value, List.foldl_append, hv, List.foldl_cons, List.foldl_nil]
    exact Nat.div_add_mod n b

/-- Delete every occurrence of `pat`, scanning from the left; `skip` counts
the characters of the current occurrence that are still to be passed over. -/
def dropPattern (pat : List Char) : ℕ → List Char → List Char
  | _, [] => []
  | k+1, _::cs => dropPattern pat k cs
  | 0, c::cs => if pat.isPrefixOf (c::cs) then dropPattern pat (pat.length-1) cs
      else c::dropPattern pat 0 cs

theorem dropPattern_of_not_mem (p : Char) (pat cs : List Char) (h : p ∉ cs) :
    dropPattern (p::pat) 0 cs = cs := by
  induction cs with
  | nil => rfl
  | cons c cs ih =>
    have hc : p ≠ c := fun he => h (he ▸ List.mem_cons_self)
    have ht := ih (fun hm => h (List.mem_cons_of_mem _ hm))
    simp [dropPattern, List.isPrefixOf, hc, ht]

def strip (set cs : List Char) : List Char :=
  ((cs.dropWhile (· ∈ set)).reverse.dropWhile (· ∈ set)).reverse

theorem strip_of_disjoint (set cs : List Char) (h : ∀ c ∈ cs, c ∉ set) : strip set cs = cs := by
  have hd : ∀ l : List Char, (∀ c ∈ l, c ∉ set) → l.dropWhile (· ∈ set) = l := by
    intro l hl
    cases l with
    | nil => rfl
    | cons c l => simp [hl c List.mem_cons_self]
  unfold strip
  rw [hd cs h, hd cs.reverse (fun c hc => h c (List.mem_reverse.mp hc)), List.reverse_reverse]

end FixedDigits
