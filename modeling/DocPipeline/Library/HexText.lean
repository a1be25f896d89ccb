import Mathlib.Tactic
import DocPipeline.Library.Digits

/-!
# Integers read from hexadecimal text

`int(text, 16)` of Python 3.13. Digits and white space of every script count
as their ASCII forms; blanks at both ends, a sign, a prefix `0x` and single
underscores between the digits are allowed. Text written with plain hex digits
reads as the number they stand for.
-/

set_option autoImplicit false

namespace HexText
open FixedDigits

-- the zeros of the decimal digits of Unicode 15.1
def decimalZeros : List ℕ :=
  [0x30,0x660,0x6f0,0x7c0,0x966,0x9e6,0xa66,0xae6,0xb66,0xbe6,0xc66,0xce6,0xd66,0xde6,0xe50,0xed0,
    0xf20,0x1040,0x1090,0x17e0,0x1810,0x1946,0x19d0,0x1a80,0x1a90,0x1b50,0x1bb0,0x1c40,0x1c50,
    0xa620,0xa8d0,0xa900,0xa9d0,0xa9f0,0xaa50,0xabf0,0xff10,0x104a0,0x10d30,0x11066,0x110f0,
    0x11136,0x111d0,0x112f0,0x11450,0x114d0,0x11650,0x116c0,0x11730,0x118e0,0x11950,0x11c50,
    0x11d50,0x11da0,0x11f50,0x16a60,0x16ac0,0x16b50,0x1d7ce,0x1d7d8,0x1d7e2,0x1d7ec,0x1d7f6,
    0x1e140,0x1e2f0,0x1e4f0,0x1e950,0x1fbf0]

def decimal (c : Char) : Option ℕ :=
  (decimalZeros.find? (fun z => z ≤ c.toNat && c.toNat < z+10)).map (c.toNat - ·)

-- white space outside ASCII
def wideSpaces : List ℕ :=
  [0x85,0xa0,0x1680,0x2000,0x2001,0x2002,0x2003,0x2004,0x2005,0x2006,0x2007,0x2008,0x2009,0x200a,
    0x2028,0x2029,0x202f,0x205f,0x3000]

def ascii (c : Char) : Char :=
  if c.toNat < 127 then c
  else if c.toNat ∈ wideSpaces then ' '
  else match decimal c with
    | some d => Nat.digitChar d
    | none => '?'

def blanks : List Char := [' ','\t','\n','\x0b','\x0c','\r']

-- the characters that have a meaning of their own around digits
def marks : List Char := ['-','+','u','x','_','X','\x7b','\x7d'] ++ blanks

def hexChar (d : ℕ) : Char := "0123456789abcdef".toList.getD d '0'

def hexValue (c : Char) : Option ℕ :=
  if '0' ≤ c ∧ c ≤ '9' then some (c.toNat - '0'.toNat)
  else if 'a' ≤ c ∧ c ≤ 'f' then some (c.toNat - 'a'.toNat+10)
  else if 'A' ≤ c ∧ c ≤ 'F' then some (c.toNat - 'A'.toNat+10)
  else none

/-- Digits up to the end of the text; `digit` says whether one stands before,
so that an underscore may follow. -/
def readDigits : (digit : Bool) → List Char → Option (List ℕ)
  | true, [] => some []
  | false, [] => none
  | digit, c::cs =>
    if c = '_' then if digit then readDigits false cs else none
    else (hexValue c).bind fun d => (readDigits true cs).map (d::·)

-- one underscore may follow the prefix
def dropPrefix (cs : List Char) : List Char :=
  if cs.take 2 = ['0','x'] ∨ cs.take 2 = ['0','X'] then
    if (cs.drop 2).head? = some '_' then cs.drop 3 else cs.drop 2
  else cs

def unsigned (cs : List Char) : Option ℤ :=
  (readDigits false (dropPrefix cs)).map fun ds => (value 16 ds : ℤ)

/-- `int(text, 16)`; `none` where it raises `ValueError`. -/
def int16 (cs : List Char) : Option ℤ :=
  let cs := strip blanks (cs.map ascii)
  if cs.head? = some '-' then (unsigned cs.tail).map (- ·)
  else if cs.head? = some '+' then unsigned cs.tail
  else unsigned cs

section Digits
variable {d : ℕ} {ds : List ℕ}

theorem hexValue_hexChar (h : d < 16) : hexValue (hexChar d) = some d := by
  interval_cases d <;> decide

theorem hexChar_plain (h : d < 16) : ∀ c ∈ marks, hexChar d ≠ c := by
  have hall : marks.all (hexChar d ≠ ·) = true := by interval_cases d <;> decide
  simpa using hall

theorem ascii_hexChar (h : d < 16) : ascii (hexChar d) = hexChar d := by
  interval_cases d <;> decide

theorem readDigits_hexChar (h : ∀ x ∈ ds, x < 16) : readDigits true (ds.map hexChar) = some ds := by
  induction ds with
  | nil => rfl
  | cons d ds ih =>
    have hd := h d List.mem_cons_self
    have hne : hexChar d ≠ '_' := hexChar_plain hd '_' (by decide)
    have ht := ih fun x hx => h x (List.mem_cons_of_mem _ hx)
    simp [readDigits, hne, hexValue_hexChar hd, ht]

theorem dropPrefix_of_not_mem {cs : List Char} (hx : 'x' ∉ cs) (hX : 'X' ∉ cs) :
    dropPrefix cs = cs := by
  have hmem : ∀ c, cs.take 2 = ['0',c] → c ∈ cs := by
    intro c h
    refine List.mem_of_mem_take (i := 2) ?_
    rw [h]
    simp
  refine if_neg ?_
  rintro (h | h)
  · exact hx (hmem _ h)
  · exact hX (hmem _ h)

/-- Text written with hex digits reads as their number. -/
theorem int16_hexChar (hne : ds ≠ []) (h : ∀ x ∈ ds, x < 16) :
    int16 (ds.map hexChar) = some (value 16 ds : ℤ) := by
  have hplain : ∀ c ∈ ds.map hexChar, ∀ x ∈ marks, c ≠ x := by
    intro c hc
    obtain ⟨d,hd,rfl⟩ := List.mem_map.mp hc
    exact hexChar_plain (h d hd)
  have hascii : (ds.map hexChar).map ascii = ds.map hexChar := by
    rw [List.map_map]
    exact List.map_congr_left fun d hd => ascii_hexChar (h d hd)
  have hstrip : strip blanks (ds.map hexChar) = ds.map hexChar := by
    refine strip_of_disjoint _ _ fun c hc hb => ?_
    exact hplain c hc c (List.mem_append_right _ hb) rfl
  have hhead : ∀ x ∈ marks, (ds.map hexChar).head? ≠ some x :=
    fun x hx hh => hplain x (List.mem_of_mem_head? hh) x hx rfl
  have hdrop : dropPrefix (ds.map hexChar) = ds.map hexChar :=
    dropPrefix_of_not_mem (fun hm => hplain _ hm 'x' (by decide) rfl)
      fun hm => hplain _ hm 'X' (by decide) rfl
  have hread : readDigits false (ds.map hexChar) = some ds := by
    cases ds with
    | nil => exact absurd rfl hne
    | cons d ds =>
      rw [← readDigits_hexChar h]
      simp [readDigits, hexChar_plain (h d List.mem_cons_self) '_' (by decide)]
  simp only [int16, hascii, hstrip, hhead '-' (by decide), hhead '+' (by decide), if_false,
    unsigned, hdrop, hread, Option.map_some]

end Digits

example : int16 " +0x_1F ".toList = some 31 := by decide

end HexText
