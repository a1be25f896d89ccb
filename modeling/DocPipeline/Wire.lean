import DocPipeline.Consumer
import DocPipeline.Library.Delimited

/-!
# Messages as bytes

The producers publish `json.dumps(payload).encode()` and the handler begins
with `json.loads`. Both functions are parameters here: `dumps` is faithful on
flat payloads, and `loads` raises one of four exceptions on a body it does not
accept. What the first block of the handler makes of a body is `firstBlock`.
-/

set_option autoImplicit false

namespace DocPipeline.Wire
open DocPipeline.Identifiers DocPipeline.Records DocPipeline.Database DocPipeline.Calls
open DocPipeline.Consumer EffectProgram HexText

inductive LoadsError where
  | jsonDecodeError
  | unicodeDecodeError
  | valueError
  | recursionError
  deriving DecidableEq

inductive Raised where
  | loads (e : LoadsError)
  | keyError
  | typeError
  | valueError
  deriving DecidableEq

/-- `except (json.JSONDecodeError, KeyError, TypeError, ValueError)`; the
decoding errors are subclasses of `ValueError`, `RecursionError` is not. -/
def Raised.caught : Raised → Bool
  | .loads .recursionError => false
  | _ => true

def member (payload : Json) : Except Raised Json :=
  match payload with
  | .obj members => match (members.reverse.find? (fun m => m.1 = "job_id")).map Prod.snd with
    | some value => .ok value
    | none => .error .keyError
  | _ => .error .typeError

def uuid (value : Json) : Except Raised Uuid :=
  match value.uuidText.bind Uuid.parse with
  | some id => .ok id
  | none => .error .valueError

abbrev Loads := Bytes → Except LoadsError Json

def firstBlock (loads : Loads) (body : Bytes) : Except Raised Uuid := do
  let payload ← (loads body).mapError Raised.loads
  let value ← member payload
  uuid value

def received (loads : Loads) (body : Bytes) : Body :=
  match loads body with
  | .ok payload => .json payload
  | .error .recursionError => .tooDeep
  | .error _ => .malformed

def handleBytes (loads : Loads) (body : Bytes) : Code Unit := handle (received loads body)

section Decoding
variable (loads : Loads) (body : Bytes)

theorem decode_received : decode (received loads body) = match firstBlock loads body with
    | .ok id => .job id
    | .error e => if e.caught then .poison else .escapes (.other "maximum recursion depth exceeded") := by
  unfold received firstBlock
  cases hl : loads body with
  | error e => cases e <;> rfl
  | ok payload =>
    have hm : decode (.json payload) = match member payload with
        | .ok value => match uuid value with
          | .ok id => .job id
          | .error _ => .poison
        | .error _ => .poison := by
      cases payload with
      | obj members =>
        simp only [decode, Json.jobId, member]
        cases (members.reverse.find? (fun m => m.1 = "job_id")).map Prod.snd with
        | none => rfl
        | some value =>
          simp only [Option.bind_some, uuid]
          cases value.uuidText.bind Uuid.parse <;> rfl
      | _ => rfl
    simp only [hm, Except.mapError]
    cases hv : member payload with
    | error e =>
      have : e.caught = true := by
        unfold member at hv
        split at hv
        · split at hv <;> cases hv
          rfl
        · cases hv
          rfl
      simp [bind, Except.bind, hv, this]
    | ok value =>
      cases hu : uuid value with
      | ok id => simp [bind, Except.bind, hv, hu]
      | error e =>
        have : e.caught = true := by
          unfold uuid at hu
          split at hu <;> cases hu
          rfl
        simp [bind, Except.bind, hv, hu, this]

def NamesJob : Prop :=
  ∃ payload value id, loads body = .ok payload ∧ member payload = .ok value ∧ uuid value = .ok id

theorem namesJob_iff : NamesJob loads body ↔ ∃ id, firstBlock loads body = .ok id := by
  unfold NamesJob firstBlock
  cases hl : loads body with
  | error e => simp [Except.mapError, bind, Except.bind]
  | ok payload =>
    cases hv : member payload with
    | error e => simp [Except.mapError, bind, Except.bind, hv]
    | ok value => simp [Except.mapError, bind, Except.bind, hv]

theorem recursionError_iff : firstBlock loads body = .error (.loads .recursionError) ↔
    loads body = .error .recursionError := by
  unfold firstBlock
  cases hl : loads body with
  | error e => simp [Except.mapError, bind, Except.bind]
  | ok payload =>
    simp only [Except.mapError, bind, Except.bind]
    cases hv : member payload with
    | error e =>
      unfold member at hv
      split at hv
      · split at hv <;> cases hv
        simp
      · cases hv
        simp
    | ok value =>
      simp only [uuid]
      split <;> simp

/-- A poison message is acked and nothing else is done, unless `json.loads`
gave up on its nesting. -/
theorem poison_acked_iff (hp : ¬ NamesJob loads body) :
    handleBytes loads body = await .ack ↔ loads body ≠ .error .recursionError := by
  have hd := decode_received loads body
  rw [handleBytes, handle, ne_eq, ← recursionError_iff]
  cases hf : firstBlock loads body with
  | ok id => exact absurd ((namesJob_iff loads body).mpr ⟨id,hf⟩) hp
  | error e =>
    simp only [hf] at hd
    by_cases hc : e.caught = true
    · simp only [hc, if_true] at hd
      simp only [hd, true_iff, Except.error.injEq]
      rintro rfl
      cases hc
    · simp only [hc] at hd
      have he : e = .loads .recursionError := by
        cases e with
        | loads e => cases e <;> simp_all [Raised.caught]
        | _ => simp [Raised.caught] at hc
      simp only [he, not_true_eq_false, iff_false]
      intro h
      rw [hd] at h
      cases h

end Decoding

/-- `json.loads` on bodies made of opening brackets only: a decoding error,
or `RecursionError` beyond the interpreter's limit. -/
def bracketLoads (limit : ℕ) : Loads := fun body =>
  if limit < (body.data.toList.takeWhile (· = 91)).length then .error .recursionError
  else .error .jsonDecodeError

theorem bracketLoads_poison (limit : ℕ) (body : Bytes) : ¬ NamesJob (bracketLoads limit) body := by
  rintro ⟨payload,value,id,h,-⟩
  unfold bracketLoads at h
  split at h <;> cases h

theorem poison_acked_iff_sample :
    handleBytes (bracketLoads 10000) ByteArray.empty = await .ack :=
  (poison_acked_iff _ _ (bracketLoads_poison _ _)).mpr (by simp [bracketLoads])

def brackets (n : ℕ) : Bytes := ⟨Array.replicate n 91⟩

theorem bracketLoads_deep {limit n : ℕ} (h : limit < n) :
    bracketLoads limit (brackets n) = .error .recursionError := by
  simp [bracketLoads, brackets, h]

theorem deep_body_escapes : ¬ NamesJob (bracketLoads 10000) (brackets 200000) ∧
    handleBytes (bracketLoads 10000) (brackets 200000) =
      .raise (.other "maximum recursion depth exceeded") ∧
    handleBytes (bracketLoads 10000) (brackets 200000) ≠ await .ack := by
  have hl := bracketLoads_deep (show 10000 < 200000 by decide)
  have hh : handleBytes (bracketLoads 10000) (brackets 200000) =
      .raise (.other "maximum recursion depth exceeded") := by
    rw [handleBytes, received, hl]
    rfl
  refine ⟨bracketLoads_poison _ _,hh,?_⟩
  rw [hh]
  exact fun h => by cases h

section Producers

def Unescaped (text : String) : Prop := ∀ c ∈ text.toList, c ≠ '"' ∧ c ≠ '\\' ∧ 32 ≤ c.toNat ∧ c.toNat < 127

def FlatValue : Json → Prop
  | .str text => Unescaped text
  | .arr items => ∀ item ∈ items, ∃ text, item = .str text ∧ Unescaped text
  | _ => False

def Flat : Json → Prop
  | .obj members => (members.map Prod.fst).Nodup ∧
      ∀ m ∈ members, Unescaped m.1 ∧ FlatValue m.2
  | _ => False

def Faithful (dumps : Json → String) (loads : Loads) : Prop :=
  ∀ payload, Flat payload → loads (dumps payload).toUTF8 = .ok payload

def published (dumps : Json → String) (payload : Json) : Bytes := (dumps payload).toUTF8

theorem unescaped_hexChar (d : ℕ) (h : d < 16) :
    hexChar d ≠ '"' ∧ hexChar d ≠ '\\' ∧ 32 ≤ (hexChar d).toNat ∧ (hexChar d).toNat < 127 := by
  interval_cases d <;> decide

theorem unescaped_str (u : Uuid) : Unescaped (Uuid.str u) := by
  intro c hc
  rcases mem_str u c hc with h | rfl
  · obtain ⟨d,hd,rfl⟩ := List.mem_map.mp h
    exact unescaped_hexChar d (FixedDigits.digits_lt 16 32 _ (by decide) d hd)
  · decide

theorem flat_retryPayload (j : Uuid) : Flat (retryPayload j) := by
  refine ⟨by simp,?_⟩
  simp only [List.forall_mem_cons, List.not_mem_nil]
  exact ⟨⟨by simp [Unescaped],unescaped_str j⟩,by simp⟩

theorem flat_newJobPayload (job : JobRow) : Flat (newJobPayload job) := by
  refine ⟨by simp,?_⟩
  simp only [List.forall_mem_cons]
  refine ⟨⟨by simp [Unescaped],unescaped_str _⟩,⟨by simp [Unescaped],unescaped_str _⟩,
    ⟨by simp [Unescaped],?_⟩,by simp⟩
  intro item hi
  obtain ⟨t,-,rfl⟩ := List.mem_map.mp hi
  cases t
  exact ⟨_,rfl,by simp [Unescaped, ArtifactType.value]⟩

theorem firstBlock_of_loads {loads : Loads} {body : Bytes} {payload : Json} {id : Uuid}
    (hl : loads body = .ok payload) (hd : decode (.json payload) = .job id) :
    firstBlock loads body = .ok id := by
  have h := decode_received loads body
  rw [received, hl] at h
  simp only [hd] at h
  cases hf : firstBlock loads body with
  | ok i =>
    rw [hf] at h
    rw [Decoded.job.inj h]
  | error e =>
    rw [hf] at h
    simp only at h
    split at h <;> cases h

/-- Both producers publish bodies that the handler decodes to the job they
are about. So a retry is handled like the first message, and messages of
different jobs are never confused. -/
theorem producers_agree {dumps : Json → String} {loads : Loads} (hf : Faithful dumps loads) :
    (∀ job, firstBlock loads (published dumps (newJobPayload job)) = .ok job.id) ∧
    (∀ j, firstBlock loads (published dumps (retryPayload j)) = .ok j) ∧
    (∀ job, handleBytes loads (published dumps (retryPayload job.id)) =
      handleBytes loads (published dumps (newJobPayload job))) ∧
    ∀ i j, i ≠ j → ∀ x y, (x = retryPayload i ∨ ∃ job, job.id = i ∧ x = newJobPayload job) →
      (y = retryPayload j ∨ ∃ job, job.id = j ∧ y = newJobPayload job) →
      firstBlock loads (published dumps x) ≠ firstBlock loads (published dumps y) := by
  have hnew : ∀ job, firstBlock loads (published dumps (newJobPayload job)) = .ok job.id :=
    fun job => firstBlock_of_loads (hf _ (flat_newJobPayload job)) (decode_newJobPayload job)
  have hretry : ∀ j, firstBlock loads (published dumps (retryPayload j)) = .ok j :=
    fun j => firstBlock_of_loads (hf _ (flat_retryPayload j)) (decode_retryPayload j)
  have hone : ∀ i x, (x = retryPayload i ∨ ∃ job, job.id = i ∧ x = newJobPayload job) →
      firstBlock loads (published dumps x) = .ok i := by
    rintro i x (rfl | ⟨job,rfl,rfl⟩)
    · exact hretry i
    · exact hnew job
  refine ⟨hnew,hretry,fun job => ?_,fun i j hij x y hx hy h => ?_⟩
  · rw [handleBytes, handleBytes, handle, handle, decode_received, decode_received, hnew, hretry]
  · rw [hone i x hx, hone j y hy] at h
    exact hij (Except.ok.inj h)

end Producers

section FlatText

/-! The texts of `json.dumps` on flat payloads, and a reader for them. -/

def quote (text : String) : List Char := '"'::(text.toList++['"'])

def itemText : Json → List Char
  | .str text => quote text
  | _ => []

def itemsText : List Json → List Char
  | [] => [']']
  | [x] => itemText x++[']']
  | x::y::xs => itemText x ++ ',':: ' '::itemsText (y::xs)

def valueText : Json → List Char
  | .arr items => '['::itemsText items
  | value => itemText value

def memberText (m : String × Json) : List Char := quote m.1 ++ ':':: ' '::valueText m.2

def membersText : List (String × Json) → List Char
  | [] => ['\x7d']
  | [m] => memberText m++['\x7d']
  | m::n::ms => memberText m ++ ',':: ' '::membersText (n::ms)

def flatDumps : Json → String
  | .obj members => String.ofList ('\x7b'::membersText members)
  | _ => ""

def readString : List Char → Option (String × List Char)
  | '"'::cs => match cs.dropWhile (· ≠ '"') with
    | _::rest => some (String.ofList (cs.takeWhile (· ≠ '"')),rest)
    | [] => none
  | _ => none

def readItems : ℕ → List Char → Option (List Json × List Char)
  | 0, _ => none
  | n+1, cs => do
    let (text,rest) ← readString cs
    match rest with
    | ']'::rest => some ([.str text],rest)
    | ',':: ' '::rest => (readItems n rest).map (fun r => (.str text::r.1,r.2))
    | _ => none

def readValue : List Char → Option (Json × List Char)
  | [] => none
  | c::cs => if c = '[' then
      if cs.head? = some ']' then some (.arr [],cs.tail)
      else (readItems cs.length cs).map (fun r => (.arr r.1,r.2))
    else (readString (c::cs)).map (fun r => (.str r.1,r.2))

def readMembers : ℕ → List Char → Option (List (String × Json) × List Char)
  | 0, _ => none
  | n+1, cs => do
    let (key,rest) ← readString cs
    match rest with
    | ':':: ' '::rest =>
      let (value,rest) ← readValue rest
      match rest with
      | '\x7d'::rest => some ([(key,value)],rest)
      | ',':: ' '::rest => (readMembers n rest).map (fun r => ((key,value)::r.1,r.2))
      | _ => none
    | _ => none

def flatLoads : Loads := fun body =>
  match (String.fromUTF8? body).map String.toList with
  | some (c::cs) => if c = '\x7b' then
      if cs = ['\x7d'] then .ok (.obj [])
      else match readMembers cs.length cs with
        | some (members,[]) => .ok (.obj members)
        | _ => .error .jsonDecodeError
    else .error .jsonDecodeError
  | some [] => .error .jsonDecodeError
  | none => .error .unicodeDecodeError

theorem readString_quote {text : String} (h : Unescaped text) (rest : List Char) :
    readString (quote text++rest) = some (text,rest) := by
  have hp : ∀ c ∈ text.toList, decide (c ≠ '"') = true := fun c hc => by simpa using (h c hc).1
  have ht : (text.toList ++ '"'::rest).takeWhile (· ≠ '"') = text.toList := by
    rw [List.takeWhile_append_of_pos hp]
    simp
  have hd : (text.toList ++ '"'::rest).dropWhile (· ≠ '"') = '"'::rest := by
    rw [List.dropWhile_append_of_pos hp]
    simp
  have hq : quote text++rest = '"'::(text.toList ++ '"'::rest) := by simp [quote]
  rw [hq]
  simp only [readString, hd, ht, String.ofList_toList]

theorem length_itemsText (items : List Json) : items.length ≤ (itemsText items).length := by
  fun_induction itemsText items with
  | case1 => simp
  | case2 x => simp
  | case3 x y xs ih =>
    simp only [List.length_append, List.length_cons] at ih ⊢
    omega

theorem length_membersText (members : List (String × Json)) :
    members.length ≤ (membersText members).length := by
  fun_induction membersText members with
  | case1 => simp
  | case2 m => simp
  | case3 m n ms ih =>
    simp only [List.length_append, List.length_cons] at ih ⊢
    omega

theorem readItems_text {items : List Json} (hne : items ≠ [])
    (h : ∀ item ∈ items, ∃ text, item = .str text ∧ Unescaped text) {n : ℕ}
    (hn : items.length ≤ n) (rest : List Char) :
    readItems n (itemsText items++rest) = some (items,rest) := by
  induction items generalizing n with
  | nil => exact absurd rfl hne
  | cons x xs ih =>
    obtain ⟨text,rfl,ht⟩ := h x List.mem_cons_self
    obtain ⟨n,rfl⟩ : ∃ k, n = k+1 := ⟨n-1,by simp at hn; omega⟩
    cases xs with
    | nil =>
      simp only [itemsText, itemText, List.append_assoc, readItems, readString_quote ht]
      rfl
    | cons y ys =>
      have hr := ih (by simp) (fun z hz => h z (List.mem_cons_of_mem _ hz)) (n := n)
        (by simpa using hn)
      simp only [itemsText, itemText, List.append_assoc, readItems, readString_quote ht]
      simp only [List.cons_append, Option.bind_eq_bind, Option.bind_some, hr, Option.map_some]

theorem readValue_text {value : Json} (h : FlatValue value) (rest : List Char) :
    readValue (valueText value++rest) = some (value,rest) := by
  cases value with
  | str text =>
    have hr := readString_quote h rest
    have hq : quote text++rest = '"' :: (text.toList ++ '"' :: rest) := by simp [quote]
    rw [hq] at hr
    simp [valueText, itemText, hq, readValue, hr]
  | arr items =>
    cases items with
    | nil => rfl
    | cons x xs =>
      obtain ⟨text,rfl,-⟩ := h x List.mem_cons_self
      have hlen : (Json.str text::xs).length ≤ (itemsText (.str text::xs)++rest).length := by
        have := length_itemsText (.str text::xs)
        simp only [List.length_append]
        omega
      have hr := readItems_text (by simp) h hlen rest
      have hhead : (itemsText (.str text::xs)++rest).head? = some '"' := by
        cases xs <;> simp [itemsText, itemText, quote]
      simp only [valueText, List.cons_append, readValue, if_true, hhead, hr, Option.map_some]
      simp
  | _ => cases h

theorem readMembers_text {members : List (String × Json)} (hne : members ≠ [])
    (h : ∀ m ∈ members, Unescaped m.1 ∧ FlatValue m.2) {n : ℕ} (hn : members.length ≤ n) :
    readMembers n (membersText members) = some (members,[]) := by
  induction members generalizing n with
  | nil => exact absurd rfl hne
  | cons m ms ih =>
    obtain ⟨hk,hv⟩ := h m List.mem_cons_self
    obtain ⟨n,rfl⟩ : ∃ k, n = k+1 := ⟨n-1,by simp at hn; omega⟩
    obtain ⟨key,value⟩ := m
    cases ms with
    | nil =>
      simp only [membersText, memberText, List.append_assoc, List.cons_append, readMembers,
        readString_quote hk, Option.bind_eq_bind, Option.bind_some, readValue_text hv]
    | cons m' ms =>
      have hr := ih (by simp) (fun x hx => h x (List.mem_cons_of_mem _ hx)) (n := n)
        (by simpa using hn)
      simp only [membersText, memberText, List.append_assoc, List.cons_append, readMembers,
        readString_quote hk, Option.bind_eq_bind, Option.bind_some, readValue_text hv, hr,
        Option.map_some]

theorem faithful_flat : Faithful flatDumps flatLoads := by
  intro payload hp
  cases payload with
  | obj members =>
    have hu : ∀ text : String, String.fromUTF8? text.toUTF8 = some text := by
      intro text
      simp only [String.fromUTF8?, Option.dite_none_right_eq_some, Option.some.injEq]
      exact ⟨text.isValidUTF8,rfl⟩
    simp only [flatLoads, flatDumps, hu, Option.map_some, String.toList_ofList, if_true]
    cases members with
    | nil => rfl
    | cons m ms =>
      have hr := readMembers_text (by simp) hp.2 (length_membersText (m::ms))
      have hne : membersText (m::ms) ≠ ['\x7d'] := by
        intro h
        rw [h] at hr
        cases hr
      rw [if_neg hne, hr]
  | _ => cases hp

end FlatText

theorem producers_agree_sample :
    firstBlock flatLoads (published flatDumps (retryPayload 5)) = .ok 5 :=
  (producers_agree faithful_flat).2.1 5

end DocPipeline.Wire
