import Mathlib
import DocPipeline.Library.HexText

/-!
# Identifiers and the object keys derived from them

A UUID is a 128-bit number with a text form of 8-4-4-4-12 lower-case hex
digits; `Uuid.parse` follows `uuid.UUID`, which drops `urn:`, `uuid:`, outer
braces and hyphens and gives the 32 characters that must be left to
`int(hex, 16)`. The two key formats name an account and a document and nothing
else.
-/

set_option autoImplicit false

namespace DocPipeline.Identifiers
open FixedDigits HexText

abbrev Uuid := BitVec 128
abbrev AccountId := ℤ

def Uuid.hex (u : Uuid) : List Char := (digits 16 32 u.toNat).map hexChar

def Uuid.str (u : Uuid) : String :=
  let h := Uuid.hex u
  String.ofList (h.take 8 ++ '-'::((h.drop 8).take 4 ++ '-'::((h.drop 12).take 4 ++
    '-'::((h.drop 16).take 4 ++ '-'::h.drop 20))))

-- the 128 bits that `uuid.UUID` asks of a number
def Uuid.ofInt (n : ℤ) : Option Uuid :=
  if 0 ≤ n ∧ n < 2^128 then some (BitVec.ofInt 128 n) else none

def Uuid.cleaned (text : String) : List Char :=
  let cs := dropPattern "uuid:".toList 0 (dropPattern "urn:".toList 0 text.toList)
  (strip ['\x7b','\x7d'] cs).filter (· ≠ '-')

/-- `uuid.UUID(text)`; `none` where it raises `ValueError`. -/
def Uuid.parse (text : String) : Option Uuid :=
  if (Uuid.cleaned text).length = 32 then (int16 (Uuid.cleaned text)).bind Uuid.ofInt else none

theorem ofInt_toNat (u : Uuid) : Uuid.ofInt u.toNat = some u := by
  have hlt : (u.toNat : ℤ) < 2^128 := by exact_mod_cast u.isLt
  rw [Uuid.ofInt, if_pos ⟨Int.natCast_nonneg _,hlt⟩, BitVec.ofInt_natCast, BitVec.ofNat_toNat,
    BitVec.setWidth_eq]

theorem length_hex (u : Uuid) : (Uuid.hex u).length = 32 := by
  simp [Uuid.hex, length_digits]

theorem hex_plain (u : Uuid) : ∀ c ∈ Uuid.hex u, c ≠ '-' ∧ c ≠ 'u' ∧ c ≠ '\x7b' ∧ c ≠ '\x7d' := by
  intro c hc
  obtain ⟨d,hd,rfl⟩ := List.mem_map.mp hc
  have hplain := hexChar_plain (digits_lt 16 32 _ (by decide) d hd)
  exact ⟨hplain _ (by decide),hplain _ (by decide),hplain _ (by decide),hplain _ (by decide)⟩

theorem int16_hex (u : Uuid) : int16 (Uuid.hex u) = some (u.toNat : ℤ) := by
  have hne : digits 16 32 u.toNat ≠ [] := by
    refine List.ne_nil_of_length_pos ?_
    rw [length_digits]
    decide
  rw [Uuid.hex, int16_hexChar hne (digits_lt 16 32 _ (by decide)), value_digits 16 32 _ u.isLt]

theorem mem_str (u : Uuid) (c : Char) (hc : c ∈ (Uuid.str u).toList) : c ∈ Uuid.hex u ∨ c = '-' := by
  simp only [Uuid.str, String.toList_ofList, List.mem_append, List.mem_cons] at hc
  rcases hc with h | h | h | h | h | h | h | h | h
  · exact Or.inl (List.mem_of_mem_take h)
  · exact Or.inr h
  · exact Or.inl (List.mem_of_mem_drop (List.mem_of_mem_take h))
  · exact Or.inr h
  · exact Or.inl (List.mem_of_mem_drop (List.mem_of_mem_take h))
  · exact Or.inr h
  · exact Or.inl (List.mem_of_mem_drop (List.mem_of_mem_take h))
  · exact Or.inr h
  · exact Or.inl (List.mem_of_mem_drop h)

theorem str_filter (u : Uuid) : (Uuid.str u).toList.filter (· ≠ '-') = Uuid.hex u := by
  have hk : ∀ l : List Char, (∀ c ∈ l, c ∈ Uuid.hex u) → l.filter (· ≠ '-') = l := by
    intro l hl
    apply List.filter_eq_self.mpr
    intro c hc
    simpa using (hex_plain u c (hl c hc)).1
  have h1 := hk ((Uuid.hex u).take 8) (fun c h => List.mem_of_mem_take h)
  have h2 := hk (((Uuid.hex u).drop 8).take 4)
    (fun c h => List.mem_of_mem_drop (List.mem_of_mem_take h))
  have h3 := hk (((Uuid.hex u).drop 12).take 4)
    (fun c h => List.mem_of_mem_drop (List.mem_of_mem_take h))
  have h4 := hk (((Uuid.hex u).drop 16).take 4)
    (fun c h => List.mem_of_mem_drop (List.mem_of_mem_take h))
  have h5 := hk ((Uuid.hex u).drop 20) (fun c h => List.mem_of_mem_drop h)
  have hd : ∀ l : List Char, ('-'::l).filter (· ≠ '-') = l.filter (· ≠ '-') := by simp
  simp only [Uuid.str, String.toList_ofList, List.filter_append, hd, h1, h2, h3, h4, h5]
  have hs : ∀ n m : ℕ, ((Uuid.hex u).drop n).take m ++ (Uuid.hex u).drop (n+m) =
      (Uuid.hex u).drop n := by
    intro n m
    rw [← List.drop_drop, List.take_append_drop]
  rw [hs 16 4, hs 12 4, hs 8 4, List.take_append_drop]

theorem length_str (u : Uuid) : (Uuid.str u).toList.length = 36 := by
  have := length_hex u
  simp [Uuid.str, this]

theorem cleaned_str (u : Uuid) : Uuid.cleaned (Uuid.str u) = Uuid.hex u := by
  have hplain : ∀ c ∈ (Uuid.str u).toList, c ≠ 'u' ∧ c ≠ '\x7b' ∧ c ≠ '\x7d' := by
    intro c hc
    rcases mem_str u c hc with h | rfl
    · exact (hex_plain u c h).2
    · decide
  have hu : 'u' ∉ (Uuid.str u).toList := fun h => (hplain _ h).1 rfl
  have hs : strip ['\x7b','\x7d'] (Uuid.str u).toList = (Uuid.str u).toList := by
    apply strip_of_disjoint
    intro c hc
    simpa using (hplain c hc).2
  have h1 := dropPattern_of_not_mem 'u' "rn:".toList _ hu
  have h2 := dropPattern_of_not_mem 'u' "uid:".toList _ hu
  have hurn : "urn:".toList = 'u'::"rn:".toList := by decide
  have huuid : "uuid:".toList = 'u'::"uid:".toList := by decide
  simp only [Uuid.cleaned, hurn, huuid, h1, h2, hs, str_filter]

/-- Reading the text form of a UUID gives the UUID back. -/
theorem parse_str (u : Uuid) : Uuid.parse (Uuid.str u) = some u := by
  have hlen := length_hex u
  have hint := int16_hex u
  have hof := ofInt_toNat u
  unfold Uuid.parse
  rw [cleaned_str, if_pos hlen, hint, Option.bind_some, hof]

example : Uuid.parse "0x_00000000000000000000000000_2A" = some 42#128 := by decide

theorem str_injective : Function.Injective Uuid.str := by
  intro u v h
  have := parse_str u
  rw [h, parse_str] at this
  exact (Option.some.inj this).symm

def rawKey (account : AccountId) (document : Uuid) : String :=
  "raw/" ++ (toString account ++ ("/" ++ (Uuid.str document ++ ".pdf")))

def artifactKey (account : AccountId) (document : Uuid) : String :=
  "artifacts/" ++ (toString account ++ ("/" ++ (Uuid.str document ++ ".md")))

theorem key_tail_injective (ext : String) (a b : AccountId) (d e : Uuid)
    (h : toString a ++ ("/" ++ (Uuid.str d ++ ext)) = toString b ++ ("/" ++ (Uuid.str e ++ ext))) :
    a = b ∧ d = e := by
  have hl := congrArg String.toList h
  simp only [String.toList_append] at hl
  have hlen : ("/".toList ++ ((Uuid.str d).toList ++ ext.toList)).length =
      ("/".toList ++ ((Uuid.str e).toList ++ ext.toList)).length := by
    simp [length_str]
  obtain ⟨ha,ht⟩ := List.append_inj' hl hlen
  obtain ⟨hd,-⟩ := List.append_inj' (List.append_cancel_left ht) rfl
  exact ⟨Int.repr_injective (String.toList_inj.mp ha),str_injective (String.toList_inj.mp hd)⟩

theorem rawKey_injective {a b : AccountId} {d e : Uuid} (h : rawKey a d = rawKey b e) :
    a = b ∧ d = e := by
  apply key_tail_injective ".pdf"
  have hl := congrArg String.toList h
  simp only [rawKey, String.toList_append] at hl
  have := List.append_cancel_left hl
  simpa only [← String.toList_append, String.toList_inj] using this

theorem artifactKey_injective {a b : AccountId} {d e : Uuid}
    (h : artifactKey a d = artifactKey b e) : a = b ∧ d = e := by
  apply key_tail_injective ".md"
  have hl := congrArg String.toList h
  simp only [artifactKey, String.toList_append] at hl
  have := List.append_cancel_left hl
  simpa only [← String.toList_append, String.toList_inj] using this

theorem rawKey_ne_artifactKey (a b : AccountId) (d e : Uuid) : rawKey a d ≠ artifactKey b e := by
  intro h
  have hl := congrArg (fun s => s.toList.head?) h
  simp [rawKey, artifactKey, String.toList_append] at hl

end DocPipeline.Identifiers
