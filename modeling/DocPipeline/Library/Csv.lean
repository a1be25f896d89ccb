import Mathlib.Tactic

/-!
# Comma-separated rows

The writer quotes a field only where it has to, and the reader is the
character machine of the format: a quote inside a quoted field is written
twice, and a row ends with a carriage return, a line feed or both. Rows read
back as they were written.
-/

set_option autoImplicit false

namespace CsvFormat

abbrev Field := List Char

section Writer

def isSpecial (c : Char) : Bool := c = ',' || c = '"' || c = '\r' || c = '\n'

def escaped (f : Field) : List Char := f.flatMap (fun c => if c = '"' then ['"','"'] else [c])

def quoted (f : Field) : List Char := '"'::(escaped f ++ ['"'])

def writeField (f : Field) : List Char := if f.any isSpecial then quoted f else f

def writeFields : List Field → List Char
  | [] => ['\r','\n']
  | [f] => writeField f ++ ['\r','\n']
  | f::g::fs => writeField f ++ ','::writeFields (g::fs)

/-- A row that is one empty field is quoted, or it would read as no field. -/
def writeRow (row : List Field) : List Char :=
  if row = [[]] then quoted [] ++ ['\r','\n'] else writeFields row

def writeRows (rows : List (List Field)) : List Char := rows.flatMap writeRow

end Writer

section Reader

inductive Mode where
  | startRecord
  | startField
  | inField
  | inQuoted
  | quoteInQuoted
  | afterReturn
  deriving DecidableEq

structure Reader where
  mode : Mode
  field : Field
  fields : List Field
  rows : List (List Field)
  deriving DecidableEq

namespace Reader

def add (r : Reader) (mode : Mode) (c : Char) : Reader :=
  { r with mode := mode, field := r.field++[c] }

def saveField (r : Reader) : Reader :=
  { r with mode := .startField, field := [], fields := r.fields++[r.field] }

/-- A line feed after a carriage return belongs to the same line end. -/
def endRow (r : Reader) (c : Char) : Reader :=
  ⟨if c = '\r' then .afterReturn else .startRecord,[],[],r.rows++[r.fields]⟩

def separate (r : Reader) (c : Char) : Reader :=
  if c = ',' then r.saveField else (r.saveField).endRow c

def startField (r : Reader) (c : Char) : Reader :=
  if c = ',' ∨ c = '\r' ∨ c = '\n' then r.separate c
  else if c = '"' then { r with mode := .inQuoted }
  else r.add .inField c

def startRecord (r : Reader) (c : Char) : Reader :=
  if c = '\r' ∨ c = '\n' then r.endRow c else r.startField c

def step (r : Reader) (c : Char) : Reader :=
  match r.mode with
  | .startRecord => r.startRecord c
  | .startField => r.startField c
  | .inField => if c = ',' ∨ c = '\r' ∨ c = '\n' then r.separate c else r.add .inField c
  | .inQuoted => if c = '"' then { r with mode := .quoteInQuoted } else r.add .inQuoted c
  | .quoteInQuoted =>
      if c = '"' then r.add .inQuoted c
      else if c = ',' ∨ c = '\r' ∨ c = '\n' then r.separate c
      else r.add .inField c
  | .afterReturn => if c = '\n' then { r with mode := .startRecord } else r.startRecord c

def finish (r : Reader) : List (List Field) :=
  match r.mode with
  | .startRecord | .afterReturn => r.rows
  | _ => r.rows++[r.fields++[r.field]]

end Reader

def read (text : List Char) : List (List Field) :=
  (text.foldl Reader.step ⟨.startRecord,[],[],[]⟩).finish

end Reader

section RoundTrip
open Reader

variable {fields : List Field} {rows : List (List Field)}

def Ready (f : Field) (fields : List Field) (rows : List (List Field)) (r : Reader) : Prop :=
  r.step ',' = ⟨.startField,[],fields++[f],rows⟩ ∧
    r.step '\r' = ⟨.afterReturn,[],[],rows++[fields++[f]]⟩

theorem read_plain (f acc : Field) (h : f.any isSpecial = false) :
    f.foldl step ⟨.inField,acc,fields,rows⟩ = ⟨.inField,acc++f,fields,rows⟩ := by
  induction f generalizing acc with
  | nil => simp
  | cons c f ih =>
    simp only [List.any_cons, Bool.or_eq_false_iff, isSpecial, decide_eq_false_iff_not] at h
    obtain ⟨⟨⟨⟨hcomma,-⟩,hr⟩,hn⟩,hf⟩ := h
    have hs : step ⟨.inField,acc,fields,rows⟩ c = ⟨.inField,acc++[c],fields,rows⟩ := by
      simp [step, add, hcomma, hr, hn]
    rw [List.foldl_cons, hs, ih _ (by simpa [isSpecial] using hf), List.append_assoc]
    rfl

theorem read_escaped (f acc : Field) :
    (escaped f).foldl step ⟨.inQuoted,acc,fields,rows⟩ = ⟨.inQuoted,acc++f,fields,rows⟩ := by
  induction f generalizing acc with
  | nil => simp [escaped]
  | cons c f ih =>
    have hs : (if c = '"' then ['"','"'] else [c]).foldl step ⟨.inQuoted,acc,fields,rows⟩ =
        ⟨.inQuoted,acc++[c],fields,rows⟩ := by
      by_cases hc : c = '"' <;> simp [step, add, hc]
    rw [escaped, List.flatMap_cons, List.foldl_append, hs, ← escaped, ih, List.append_assoc]
    rfl

theorem ready_inField (f : Field) : Ready f fields rows ⟨.inField,f,fields,rows⟩ := by
  simp [Ready, step, separate, saveField, endRow]

theorem ready_quoted {mode : Mode} (h : mode = .startRecord ∨ mode = .startField) (f : Field) :
    Ready f fields rows ((quoted f).foldl step ⟨mode,[],fields,rows⟩) := by
  have hopen : step ⟨mode,[],fields,rows⟩ '"' = ⟨.inQuoted,[],fields,rows⟩ := by
    rcases h with rfl | rfl <;> simp [step, Reader.startRecord, Reader.startField]
  rw [quoted, List.foldl_cons, hopen, List.foldl_append, read_escaped]
  simp [Ready, step, separate, saveField, endRow]

/-- A field is read back in any place but as the empty first field of a row. -/
theorem ready_writeField {mode : Mode} (f : Field)
    (h : mode = .startField ∨ mode = .startRecord ∧ f ≠ []) :
    Ready f fields rows ((writeField f).foldl step ⟨mode,[],fields,rows⟩) := by
  unfold writeField
  split
  · exact ready_quoted (h.symm.imp And.left id) f
  · rename_i hplain
    cases f with
    | nil =>
      obtain rfl := h.resolve_right (fun h => h.2 rfl)
      simp [Ready, step, Reader.startField, separate, saveField, endRow]
    | cons c f =>
      simp only [List.any_cons, Bool.or_eq_true, not_or, Bool.not_eq_true] at hplain
      obtain ⟨hc,hf⟩ := hplain
      simp only [isSpecial, Bool.or_eq_false_iff, decide_eq_false_iff_not] at hc
      obtain ⟨⟨⟨hcomma,hquote⟩,hr⟩,hn⟩ := hc
      have hs : step ⟨mode,[],fields,rows⟩ c = ⟨.inField,[c],fields,rows⟩ := by
        rcases h with rfl | ⟨rfl,-⟩ <;>
          simp [step, Reader.startRecord, Reader.startField, add, hcomma, hquote, hr, hn]
      rw [List.foldl_cons, hs, read_plain f [c] hf]
      exact ready_inField (c::f)

theorem comma_writeField {mode : Mode} (f : Field) (h : mode = .startField ∨ mode = .startRecord) :
    (writeField f ++ [',']).foldl step ⟨mode,[],fields,rows⟩ =
      ⟨.startField,[],fields++[f],rows⟩ := by
  rw [List.foldl_append]
  by_cases hf : mode = .startRecord ∧ f = []
  · obtain ⟨rfl,rfl⟩ := hf
    simp [writeField, step, Reader.startRecord, Reader.startField, separate, saveField]
  · exact (ready_writeField f (h.imp id (fun hm => ⟨hm,fun he => hf ⟨hm,he⟩⟩))).1

theorem read_writeFields {mode : Mode} (fs : List Field) (hne : fs ≠ [])
    (h : mode = .startField ∨ mode = .startRecord ∧ fs ≠ [[]]) :
    (writeFields fs).foldl step ⟨mode,[],fields,rows⟩ =
      ⟨.startRecord,[],[],rows++[fields++fs]⟩ := by
  induction fs generalizing mode fields with
  | nil => exact absurd rfl hne
  | cons f fs ih =>
    cases fs with
    | nil =>
      have hf : Ready f fields rows _ :=
        ready_writeField f (h.imp id (fun hm => ⟨hm.1,fun he => hm.2 (by rw [he])⟩))
      rw [writeFields, List.foldl_append, List.foldl_cons, hf.2]
      rfl
    | cons g fs =>
      rw [writeFields, List.append_cons, List.foldl_append, comma_writeField f (h.imp id And.left),
        ih (List.cons_ne_nil g fs) (Or.inl rfl), List.append_assoc]
      rfl

theorem read_writeRow (row : List Field) :
    (writeRow row).foldl step ⟨.startRecord,[],[],rows⟩ = ⟨.startRecord,[],[],rows++[row]⟩ := by
  unfold writeRow
  split
  · rename_i h
    subst h
    have hq : Ready [] [] rows _ := ready_quoted (Or.inl rfl) []
    rw [List.foldl_append, List.foldl_cons, hq.2]
    rfl
  · rename_i h
    cases row with
    | nil => rfl
    | cons f fs => exact read_writeFields (f::fs) (List.cons_ne_nil f fs) (Or.inr ⟨rfl,h⟩)

theorem writeRows_append (rs rs' : List (List Field)) :
    writeRows (rs++rs') = writeRows rs++writeRows rs' := List.flatMap_append

/-- Rows read back as they were written. -/
theorem read_writeRows (rs : List (List Field)) : read (writeRows rs) = rs := by
  have h : ∀ done : List (List Field), (writeRows rs).foldl step ⟨.startRecord,[],[],done⟩ =
      ⟨.startRecord,[],[],done++rs⟩ := by
    induction rs with
    | nil => simp [writeRows]
    | cons row rs ih =>
      intro done
      rw [writeRows, List.flatMap_cons, List.foldl_append, read_writeRow, ← writeRows, ih,
        List.append_assoc]
      rfl
  rw [read, h, List.nil_append, finish]

end RoundTrip

end CsvFormat
