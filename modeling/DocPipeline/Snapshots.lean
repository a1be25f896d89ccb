import DocPipeline.Records
import DocPipeline.Library.Delimited

/-!
# Reading a job row through psql

`psqlOutput` is what `psql -t -A -F'|'` prints for the nine selected columns;
`snapshot` reads it as the diagnosis scripts do: as text, stripped, split at
the separator. Nothing is escaped, so the free text of the last column comes
back only when it cannot be mistaken for anything else.
-/

set_option autoImplicit false

namespace DocPipeline.Snapshots
open DocPipeline.Identifiers DocPipeline.Records FixedDigits Delimited HexText

def daysInMonth (year month : ℕ) : ℕ :=
  if month = 2 then if year%4 = 0 ∧ (year%100 ≠ 0 ∨ year%400 = 0) then 29 else 28
  else if month = 4 ∨ month = 6 ∨ month = 9 ∨ month = 11 then 30
  else 31

structure Datetime where
  year : ℕ
  month : ℕ
  day : ℕ
  hour : ℕ
  minute : ℕ
  second : ℕ
  microsecond : ℕ
  date : (1 ≤ year ∧ year ≤ 9999) ∧ (1 ≤ month ∧ month ≤ 12) ∧
    1 ≤ day ∧ day ≤ daysInMonth year month
  time : hour < 24 ∧ minute < 60 ∧ second < 60 ∧ microsecond < 1000000
  deriving DecidableEq

def datetime (year month day hour minute second microsecond : ℕ) : Option Datetime :=
  if hd : (1 ≤ year ∧ year ≤ 9999) ∧ (1 ≤ month ∧ month ≤ 12) ∧
      1 ≤ day ∧ day ≤ daysInMonth year month then
    if ht : hour < 24 ∧ minute < 60 ∧ second < 60 ∧ microsecond < 1000000 then
      some ⟨year,month,day,hour,minute,second,microsecond,hd,ht⟩
    else none
  else none

def decimalValue (c : Char) : Option ℕ :=
  if '0' ≤ c ∧ c ≤ '9' then some (c.toNat - '0'.toNat) else none

def padded (width n : ℕ) : List Char := (digits 10 width n).map Nat.digitChar

def fraction (microsecond : ℕ) : List Char :=
  match (digits 10 6 microsecond).rdropWhile (· = 0) with
  | [] => []
  | d::ds => '.'::(d::ds).map Nat.digitChar

def Datetime.text (d : Datetime) : List Char :=
  padded 4 d.year ++ '-'::(padded 2 d.month ++ '-'::(padded 2 d.day ++ ' '::(padded 2 d.hour ++
    ':'::(padded 2 d.minute ++ ':'::(padded 2 d.second ++ fraction d.microsecond)))))

def takeNumber (width : ℕ) (cs : List Char) : Option (ℕ × List Char) :=
  if width ≤ cs.length then
    ((cs.take width).mapM decimalValue).map (fun ds => (value 10 ds,cs.drop width))
  else none

def takeChar (c : Char) : List Char → Option (List Char)
  | x::xs => if x = c then some xs else none
  | [] => none

def takeFraction : List Char → Option ℕ
  | [] => some 0
  | '.'::cs => if cs = [] then none
      else (cs.mapM decimalValue).map (fun ds => value 10 ((ds.take 6).rightpad 6 0))
  | _ => none

/-- `datetime.fromisoformat` on a date and a time of day with a blank between
them, the one form in which a timestamp column is printed. -/
def fromisoformat (cs : List Char) : Option Datetime := do
  let (year,cs) ← takeNumber 4 cs
  let (month,cs) ← takeNumber 2 (← takeChar '-' cs)
  let (day,cs) ← takeNumber 2 (← takeChar '-' cs)
  let (hour,cs) ← takeNumber 2 (← takeChar ' ' cs)
  let (minute,cs) ← takeNumber 2 (← takeChar ':' cs)
  let (second,cs) ← takeNumber 2 (← takeChar ':' cs)
  let microsecond ← takeFraction cs
  datetime year month day hour minute second microsecond

structure JobSnapshot where
  id : Uuid
  status : String
  attempts : ℤ
  maxAttempts : ℤ
  queuedAt : Option Datetime
  startedAt : Option Datetime
  completedAt : Option Datetime
  failedAt : Option Datetime
  errorMessage : Option String
  deriving DecidableEq

structure Selected where
  id : Uuid
  status : JobStatus
  attempts : ℤ
  maxAttempts : ℤ
  queuedAt : Option Datetime
  startedAt : Option Datetime
  completedAt : Option Datetime
  failedAt : Option Datetime
  errorMessage : Option String

def JobStatus.label : JobStatus → String
  | .queued => "QUEUED"
  | .started => "STARTED"
  | .completed => "COMPLETED"
  | .failed => "FAILED"

def Selected.expected (row : Selected) : JobSnapshot where
  id := row.id
  status := (JobStatus.label row.status).toLower
  attempts := row.attempts
  maxAttempts := row.maxAttempts
  queuedAt := row.queuedAt
  startedAt := row.startedAt
  completedAt := row.completedAt
  failedAt := row.failedAt
  errorMessage := row.errorMessage

def timeText (t : Option Datetime) : List Char := (t.map Datetime.text).getD []

def Selected.fields (row : Selected) : List (List Char) :=
  [(Uuid.str row.id).toList,(JobStatus.label row.status).toList,row.attempts.repr.toList,
    row.maxAttempts.repr.toList,timeText row.queuedAt,timeText row.startedAt,
    timeText row.completedAt,timeText row.failedAt]

def Selected.message (row : Selected) : List Char := (row.errorMessage.getD "").toList

def psqlOutput (row : Selected) : List Char :=
  List.intercalate ['|'] (row.fields++[row.message])++['\n']

def whitespace : List Char :=
  ['\t','\n','\x0b','\x0c','\r','\x1c','\x1d','\x1e','\x1f',' ','\u0085','\u00a0','\u1680',
    '\u2000','\u2001','\u2002','\u2003','\u2004','\u2005','\u2006','\u2007','\u2008','\u2009',
    '\u200a','\u2028','\u2029','\u202f','\u205f','\u3000']

def parseTime (field : List Char) : Option (Option Datetime) :=
  if field = [] then some none else (fromisoformat field).map some

def parseText (field : List Char) : Option String :=
  if field = [] then none else some (String.ofList field)

def parseRow (line : List Char) : Option JobSnapshot := do
  let fields := line.splitOn '|'
  let id ← Uuid.parse (String.ofList (← fields[0]?))
  let status ← fields[1]?
  let attempts ← (String.ofList (← fields[2]?)).toInt?
  let maxAttempts ← (String.ofList (← fields[3]?)).toInt?
  let queuedAt ← parseTime (← fields[4]?)
  let startedAt ← parseTime (← fields[5]?)
  let completedAt ← parseTime (← fields[6]?)
  let failedAt ← parseTime (← fields[7]?)
  let errorMessage := parseText (← fields[8]?)
  pure ⟨id,(String.ofList status).toLower,attempts,maxAttempts,queuedAt,startedAt,completedAt,
    failedAt,errorMessage⟩

/-- `snapshot` on what psql printed; `_run_query` reads it as text, which
normalises its line ends. -/
def snapshot (raw : List Char) : Option JobSnapshot :=
  let out := strip whitespace (newlines raw)
  if out = [] then none else parseRow out

section Times

theorem decimalValue_digitChar (d : ℕ) (h : d < 10) : decimalValue (Nat.digitChar d) = some d := by
  interval_cases d <;> decide

theorem mapM_decimalValue (ds : List ℕ) (h : ∀ d ∈ ds, d < 10) :
    (ds.map Nat.digitChar).mapM decimalValue = some ds := by
  induction ds with
  | nil => rfl
  | cons d ds ih =>
    have hd := decimalValue_digitChar d (h d List.mem_cons_self)
    have ht := ih (fun x hx => h x (List.mem_cons_of_mem _ hx))
    simp [List.mapM_cons, hd, ht]

theorem takeNumber_padded {width n : ℕ} (h : n < 10^width) (rest : List Char) :
    takeNumber width (padded width n++rest) = some (n,rest) := by
  have hl : (padded width n).length = width := by simp [padded, length_digits]
  have htake : (padded width n++rest).take width = padded width n := by
    rw [List.take_append_of_le_length (by rw [hl]), List.take_of_length_le (by rw [hl])]
  have hdrop : (padded width n++rest).drop width = rest := by
    rw [List.drop_append_of_le_length (by rw [hl]), List.drop_of_length_le (by rw [hl]),
      List.nil_append]
  rw [takeNumber, if_pos (by simp [hl]), htake, hdrop, padded,
    mapM_decimalValue _ (digits_lt 10 width n (by decide)), Option.map_some, value_digits 10 _ _ h]

theorem rightpad_rdropWhile (ds : List ℕ) :
    (ds.rdropWhile (· = 0)).rightpad ds.length 0 = ds := by
  have hz : ds.rtakeWhile (· = 0) = List.replicate (ds.rtakeWhile (· = 0)).length 0 := by
    apply List.eq_replicate_of_mem
    intro d hd
    simpa using List.mem_rtakeWhile_imp hd
  have hs : ds.rdropWhile (· = 0)++ds.rtakeWhile (· = 0) = ds := List.rdropWhile_append_rtakeWhile
  have hlen : ds.length-(ds.rdropWhile (· = 0)).length = (ds.rtakeWhile (· = 0)).length := by
    have := congrArg List.length hs
    rw [List.length_append] at this
    omega
  rw [List.rightpad, hlen, ← hz, hs]

theorem takeFraction_fraction {n : ℕ} (h : n < 1000000) : takeFraction (fraction n) = some n := by
  have hv := value_digits 10 6 n h
  have hpad := rightpad_rdropWhile (digits 10 6 n)
  rw [length_digits] at hpad
  have hlen : ((digits 10 6 n).rdropWhile (· = 0)).length ≤ 6 := by
    have := (List.rdropWhile_prefix (· = 0) (digits 10 6 n)).length_le
    rwa [length_digits] at this
  have hlt : ∀ d ∈ (digits 10 6 n).rdropWhile (· = 0), d < 10 := fun d hd =>
    digits_lt 10 6 n (by decide) d ((List.rdropWhile_prefix _ _).subset hd)
  rw [fraction]
  cases hds : (digits 10 6 n).rdropWhile (· = 0) with
  | nil =>
    rw [hds] at hpad
    rw [← hpad] at hv
    rw [takeFraction, ← hv]
    rfl
  | cons d ds =>
    rw [hds] at hpad hlt hlen
    have hm := mapM_decimalValue _ hlt
    simp only [takeFraction, hm, Option.map_some]
    rw [if_neg (by simp), List.take_of_length_le hlen, hpad, hv]

/-- Reading a printed timestamp gives the timestamp back. -/
theorem fromisoformat_text (d : Datetime) : fromisoformat d.text = some d := by
  obtain ⟨year,month,day,hour,minute,second,microsecond,hd,ht⟩ := d
  have hday : daysInMonth year month ≤ 31 := by
    unfold daysInMonth
    split_ifs <;> omega
  have hy : year < 10^4 := by omega
  have hmo : month < 10^2 := by omega
  have hda : day < 10^2 := by omega
  have hh : hour < 10^2 := by omega
  have hmi : minute < 10^2 := by omega
  have hse : second < 10^2 := by omega
  simp only [fromisoformat, Datetime.text, takeNumber_padded hy, takeNumber_padded hmo,
    takeNumber_padded hda, takeNumber_padded hh, takeNumber_padded hmi, takeNumber_padded hse,
    takeFraction_fraction ht.2.2.2, takeChar, if_true, Option.bind_eq_bind, Option.bind_some]
  rw [datetime, dif_pos hd, dif_pos ht]

end Times

section Lines

def Plain (c : Char) : Prop := c.isDigit ∨ c.isAlpha ∨ c ∈ ['-',' ',':','.']

instance : DecidablePred Plain := fun _ => inferInstanceAs (Decidable (_ ∨ _ ∨ _))

theorem not_plain_separator : ¬ Plain '|' := by decide

theorem not_plain_return : ¬ Plain '\r' := by decide

theorem plain_padded (width n : ℕ) : ∀ c ∈ padded width n, Plain c := by
  intro c hc
  obtain ⟨d,hd,rfl⟩ := List.mem_map.mp hc
  exact Or.inl (by simpa [Nat.isDigit_digitChar] using digits_lt 10 width n (by decide) d hd)

theorem plain_fraction (n : ℕ) : ∀ c ∈ fraction n, Plain c := by
  intro c hc
  rw [fraction] at hc
  have hsub := (List.rdropWhile_prefix (· = 0) (digits 10 6 n)).subset
  cases hds : (digits 10 6 n).rdropWhile (· = 0) with
  | nil => simp [hds] at hc
  | cons d ds =>
    rw [hds] at hc hsub
    rcases List.mem_cons.mp hc with rfl | hc
    · simp [Plain]
    · obtain ⟨e,he,rfl⟩ := List.mem_map.mp hc
      exact Or.inl (by
        simpa [Nat.isDigit_digitChar] using digits_lt 10 6 n (by decide) e (hsub he))

theorem plain_text (d : Datetime) : ∀ c ∈ d.text, Plain c := by
  intro c hc
  simp only [Datetime.text, List.mem_append, List.mem_cons] at hc
  rcases hc with h | rfl | h | rfl | h | rfl | h | rfl | h | rfl | h | h
  all_goals first
    | exact plain_padded _ _ _ h
    | exact plain_fraction _ _ h
    | simp [Plain]

theorem plain_timeText (t : Option Datetime) : ∀ c ∈ timeText t, Plain c := by
  cases t with
  | none => simp [timeText]
  | some d => exact plain_text d

theorem plain_repr (n : ℤ) : ∀ c ∈ n.repr.toList, Plain c := by
  have hnat : ∀ m : ℕ, ∀ c ∈ m.repr.toList, Plain c := by
    intro m c hc
    rw [Nat.toList_repr] at hc
    exact Or.inl (Nat.isDigit_of_mem_toDigits (by decide) (by decide) hc)
  intro c hc
  rw [Int.repr_eq_if] at hc
  split at hc
  · exact hnat _ c hc
  · rw [String.toList_append, List.mem_append] at hc
    rcases hc with hc | hc
    · obtain rfl : c = '-' := by simpa using hc
      simp [Plain]
    · exact hnat _ c hc

theorem plain_label (status : JobStatus) : ∀ c ∈ (JobStatus.label status).toList, Plain c := by
  cases status <;> simp [JobStatus.label, Plain]

theorem plain_hexChar (d : ℕ) (h : d < 16) : Plain (hexChar d) ∧ hexChar d ∉ whitespace := by
  interval_cases d <;> decide

theorem plain_str (u : Uuid) : ∀ c ∈ (Uuid.str u).toList, Plain c ∧ c ∉ whitespace := by
  intro c hc
  rcases mem_str u c hc with h | rfl
  · obtain ⟨d,hd,rfl⟩ := List.mem_map.mp h
    exact plain_hexChar d (digits_lt 16 32 _ (by decide) d hd)
  · decide

theorem plain_fields (row : Selected) : ∀ f ∈ row.fields, ∀ c ∈ f, Plain c := by
  simp only [Selected.fields, List.forall_mem_cons, List.not_mem_nil]
  exact ⟨fun c hc => (plain_str _ c hc).1,plain_label _,plain_repr _,plain_repr _,plain_timeText _,plain_timeText _,
    plain_timeText _,plain_timeText _,by simp⟩

theorem separator_not_mem (row : Selected) : ∀ f ∈ row.fields, '|' ∉ f := by
  intro f hf hm
  exact not_plain_separator (plain_fields row f hf _ hm)

theorem return_not_mem (row : Selected) : '\r' ∉ terminated '|' row.fields := by
  intro hm
  obtain ⟨f,hf,hm⟩ := List.mem_flatMap.mp hm
  rcases List.mem_append.mp hm with hm | hm
  · exact not_plain_return (plain_fields row f hf _ hm)
  · simp at hm

theorem psqlOutput_eq (row : Selected) :
    psqlOutput row = terminated '|' row.fields++(row.message++['\n']) := by
  simp [psqlOutput, terminated, Selected.fields, List.intercalate, List.intersperse]

theorem parseTime_timeText (t : Option Datetime) : parseTime (timeText t) = some t := by
  cases t with
  | none => rfl
  | some d =>
    have hne : d.text ≠ [] := by
      intro h
      have := fromisoformat_text d
      rw [h] at this
      cases this
    simp [timeText, parseTime, hne, fromisoformat_text]

def lastField (message : List Char) : List Char :=
  ((newlines (message++['\n'])).rdropWhile (· ∈ whitespace)).takeWhile (· ≠ '|')

/-- All columns but the last are always read back. -/
theorem snapshot_psqlOutput (row : Selected) : snapshot (psqlOutput row) =
    some { row.expected with errorMessage := parseText (lastField row.message) } := by
  obtain ⟨c,cs,hid⟩ : ∃ c cs, (Uuid.str row.id).toList = c::cs := by
    apply List.exists_cons_of_ne_nil
    intro h
    have := length_str row.id
    simp [h] at this
  have hc := (plain_str row.id c (by simp [hid])).2
  have hstrip : strip whitespace (newlines (psqlOutput row)) = terminated '|' row.fields++
      (newlines (row.message++['\n'])).rdropWhile (· ∈ whitespace) := by
    rw [psqlOutput_eq, newlines_append (return_not_mem row), Selected.fields, hid]
    exact strip_terminated hc (by decide) cs _ _
  have hne : strip whitespace (newlines (psqlOutput row)) ≠ [] := by
    rw [hstrip, Selected.fields, hid]
    simp [terminated]
  have hsplit := splitOn_terminated (separator_not_mem row)
    ((newlines (row.message++['\n'])).rdropWhile (· ∈ whitespace))
  have htail := splitOn_takeWhile '|'
    ((newlines (row.message++['\n'])).rdropWhile (· ∈ whitespace))
  rw [← lastField] at htail
  rw [snapshot, if_neg hne, parseRow, hstrip, hsplit]
  simp [Selected.fields, htail, parse_str, parseTime_timeText, Int.toInt?_repr, Selected.expected]

/-- The error messages that survive: null, or a text that is not empty, has
no separator and no carriage return, and does not end in white space. -/
def Legible : Option String → Prop
  | none => True
  | some text => text ≠ "" ∧ '|' ∉ text.toList ∧ '\r' ∉ text.toList ∧
      ∀ c, text.toList.getLast? = some c → c ∉ whitespace

/-- Reading a row through psql gives it back exactly when its error message
is legible. -/
theorem snapshot_iff (row : Selected) :
    snapshot (psqlOutput row) = some row.expected ↔ Legible row.errorMessage := by
  have hlast := last_field_iff (by decide : '\n' ∈ whitespace) '|' row.message
  rw [snapshot_psqlOutput, Option.some.injEq]
  have hiff : { row.expected with errorMessage := parseText (lastField row.message) } =
      row.expected ↔ parseText (lastField row.message) = row.errorMessage := by
    constructor
    · exact congrArg JobSnapshot.errorMessage
    · intro h
      rw [h]
      rfl
  rw [hiff]
  cases he : row.errorMessage with
  | none =>
    have hm : row.message = [] := by simp [Selected.message, he]
    simp only [hm, Legible, iff_true]
    decide
  | some text =>
    have hm : row.message = text.toList := by simp [Selected.message, he]
    rw [hm] at hlast ⊢
    have hne : text ≠ "" ↔ text.toList ≠ [] := by
      rw [ne_eq, ne_eq, ← String.toList_inj]
      rfl
    rw [Legible, ← hlast, hne, ← lastField]
    constructor
    · intro h
      unfold parseText at h
      split at h
      · cases h
      · rename_i hf
        have ht := congrArg String.toList (Option.some.inj h)
        rw [String.toList_ofList] at ht
        exact ⟨by rwa [ht] at hf,ht⟩
    · rintro ⟨hf,ht⟩
      rw [parseText, ht, if_neg hf, String.ofList_toList]

end Lines

def pipedRow : Selected where
  id := 1
  status := .failed
  attempts := 3
  maxAttempts := 3
  queuedAt := none
  startedAt := none
  completedAt := none
  failedAt := none
  errorMessage := some "a|b"

theorem snapshot_cuts_message :
    (snapshot (psqlOutput pipedRow)).map JobSnapshot.errorMessage = some (some "a") ∧
      snapshot (psqlOutput pipedRow) ≠ some pipedRow.expected := by
  have hread : parseText (lastField pipedRow.message) = some "a" := by decide
  have hrow : pipedRow.expected.errorMessage = some "a|b" := rfl
  rw [snapshot_psqlOutput, hread]
  refine ⟨rfl,fun h => ?_⟩
  have := congrArg JobSnapshot.errorMessage (Option.some.inj h)
  rw [hrow] at this
  revert this
  decide

end DocPipeline.Snapshots
