import DocPipeline.Adapters
import DocPipeline.Library.Csv
import DocPipeline.Library.Runs

/-!
# Provisioning accounts

`_create_accounts` adds accounts in one flush and appends their ids and keys
to a file; `AccountService.authenticate` finds an account by the hash of its
key. The accounts table carries its two unique constraints, so a call that
would break one does not complete. `sha256` stands for the hex digest.
-/

set_option autoImplicit false

namespace DocPipeline.Provisioning
open DocPipeline.Identifiers CsvFormat EffectProgram

structure Account where
  id : AccountId
  apiKeyHash : Option String
  deriving DecidableEq

structure AccountDTO where
  id : AccountId
  apiKeyHash : Option String
  deriving DecidableEq

/-- The accounts table. Hashes that are null do not count as equal. -/
structure Accounts where
  rows : List Account
  ids : (rows.map Account.id).Nodup
  hashes : (rows.filterMap Account.apiKeyHash).Nodup

def Accounts.insertAll (t : Accounts) (new : List Account) : Option Accounts :=
  if h : ((t.rows++new).map Account.id).Nodup ∧
      ((t.rows++new).filterMap Account.apiKeyHash).Nodup then
    some ⟨t.rows++new,h.1,h.2⟩
  else none

section Commands
variable (sha256 : ByteArray → String)

structure Model where
  id : Option AccountId
  apiKeyHash : Option String

structure Batch where
  added : List Model
  pending : List (ℕ × String)

def Batch.addAccount (b : Batch) (apiKey : String) : Batch where
  added := b.added++[⟨none,some (sha256 apiKey.toUTF8)⟩]
  pending := b.pending++[(b.added.length,apiKey)]

def batch (token : ℕ → String) (count : ℕ) : Batch :=
  (List.range count).foldl (fun b i => Batch.addAccount sha256 b (token i)) ⟨[],[]⟩

/-- One call: its arguments, and what `secrets.token_urlsafe` and the id
sequence give it, one after the other. -/
structure Invocation where
  count : ℕ
  out : String
  token : ℕ → String
  serial : ℕ → AccountId

structure World where
  accounts : Accounts
  files : String → Option (List Char)

def flush (serial : ℕ → AccountId) (added : List Model) (t : Accounts) :
    Option (List Model × Accounts) :=
  (t.insertAll (added.mapIdx (fun i a => ⟨serial i,a.apiKeyHash⟩))).map
    (fun t' => (added.mapIdx (fun i a => { a with id := some (serial i) }),t'))

/-- `str` of an id, or what `csv` writes for `None`. -/
def idText : Option AccountId → Field
  | none => []
  | some id => (toString id).toList

def header : List Field := ["account_id".toList,"api_key".toList]

def createAccounts (w : World) (c : Invocation) : Option World := do
  let b := batch sha256 c.token c.count
  let (flushed,accounts) ← flush c.serial b.added w.accounts
  let rows := b.pending.map (fun p => [idText (flushed[p.1]?.bind Model.id),p.2.toList])
  let writeHeader := (w.files c.out).isNone
  let text := (w.files c.out).getD []++(if writeHeader then writeRow header else [])++writeRows rows
  pure ⟨accounts,Function.update w.files c.out (some text)⟩

def getByApiKeyHash (t : Accounts) (apiKeyHash : String) : Option AccountDTO :=
  (t.rows.find? (fun a => a.apiKeyHash = some apiKeyHash)).map (fun a => ⟨a.id,a.apiKeyHash⟩)

def authenticate (t : Accounts) (apiKey : String) : Option AccountDTO :=
  getByApiKeyHash t (sha256 apiKey.toUTF8)

end Commands

section Calls
variable {sha256 : ByteArray → String}

def issued (c : Invocation) : List (AccountId × String) :=
  (List.range c.count).map (fun i => (c.serial i,c.token i))

def account (sha256 : ByteArray → String) (p : AccountId × String) : Account :=
  ⟨p.1,some (sha256 p.2.toUTF8)⟩

def dataRow (p : AccountId × String) : List Field := [(toString p.1).toList,p.2.toList]

def appended (file : Option (List Char)) (c : Invocation) : List Char :=
  file.getD []++(if file.isNone then writeRow header else [])++writeRows ((issued c).map dataRow)

theorem batch_eq (token : ℕ → String) (n : ℕ) : batch sha256 token n =
    ⟨(List.range n).map (fun i => ⟨none,some (sha256 (token i).toUTF8)⟩),
      (List.range n).map (fun i => (i,token i))⟩ := by
  induction n with
  | zero => rfl
  | succ n ih =>
    rw [batch] at ih ⊢
    rw [List.range_succ, List.foldl_append, ih, List.map_append, List.map_append]
    simp [Batch.addAccount]

/-- The row inserted for an object has the hash of the key beside it. -/
theorem inserted_eq (c : Invocation) : (batch sha256 c.token c.count).added.mapIdx
    (fun i a => (⟨c.serial i,a.apiKeyHash⟩ : Account)) = (issued c).map (account sha256) := by
  rw [batch_eq]
  apply List.ext_getElem
  · simp [issued]
  · intro i _ _
    simp [issued, account]

/-- The place kept in `pending` leads back to the object of the same key. -/
theorem pending_eq (c : Invocation) : (batch sha256 c.token c.count).pending.map (fun p =>
    [idText (((batch sha256 c.token c.count).added.mapIdx
      (fun i a => { a with id := some (c.serial i) }))[p.1]?.bind Model.id),p.2.toList]) =
    (issued c).map dataRow := by
  rw [batch_eq, issued, List.map_map, List.map_map]
  apply List.map_congr_left
  intro i hi
  have hlt : i < c.count := List.mem_range.mp hi
  simp [List.getElem?_range hlt, dataRow, idText]

/-- A call inserts its accounts and appends their ids and keys, or raises. -/
theorem createAccounts_eq (w : World) (c : Invocation) : createAccounts sha256 w c =
    (w.accounts.insertAll ((issued c).map (account sha256))).map
      (fun t => ⟨t,Function.update w.files c.out (some (appended (w.files c.out) c))⟩) := by
  simp only [createAccounts, flush, inserted_eq]
  cases w.accounts.insertAll ((issued c).map (account sha256)) with
  | none => rfl
  | some t =>
    simp only [Option.map_some, Option.bind_eq_bind, Option.bind_some, pending_eq, appended]
    rfl

theorem rows_insertAll {t t' : Accounts} {new : List Account} (h : t.insertAll new = some t') :
    t'.rows = t.rows++new := by
  unfold Accounts.insertAll at h
  split at h
  · cases h
    rfl
  · cases h

variable {w w' : World} {calls : List Invocation}

theorem accounts_of_run (h : LabelledRuns.run (createAccounts sha256) w calls = some w') :
    w'.accounts.rows = w.accounts.rows++(calls.flatMap issued).map (account sha256) := by
  induction calls generalizing w with
  | nil =>
    cases h
    simp
  | cons c calls ih =>
    obtain ⟨w₁,hc,hrest⟩ := Option.bind_eq_some_iff.mp h
    rw [createAccounts_eq, Option.map_eq_some_iff] at hc
    obtain ⟨t,ht,rfl⟩ := hc
    rw [ih hrest, rows_insertAll ht, List.flatMap_cons, List.map_append, List.append_assoc]

/-- Calls for other files leave a file alone. -/
theorem file_of_run (path : String)
    (h : LabelledRuns.run (createAccounts sha256) w calls = some w') :
    w'.files path = (calls.filter (fun c => c.out = path)).foldl
      (fun file c => some (appended file c)) (w.files path) := by
  induction calls generalizing w with
  | nil =>
    cases h
    rfl
  | cons c calls ih =>
    obtain ⟨w₁,hc,hrest⟩ := Option.bind_eq_some_iff.mp h
    rw [createAccounts_eq, Option.map_eq_some_iff] at hc
    obtain ⟨t,ht,rfl⟩ := hc
    rw [ih hrest]
    by_cases hp : c.out = path
    · subst hp
      simp
    · simp [hp, Function.update_of_ne (Ne.symm hp)]

theorem appended_written (rows : List (List Field)) (calls : List Invocation) :
    calls.foldl (fun file c => some (appended file c)) (some (writeRows rows)) =
      some (writeRows (rows++(calls.flatMap issued).map dataRow)) := by
  induction calls generalizing rows with
  | nil => simp
  | cons c calls ih =>
    have hc : appended (some (writeRows rows)) c = writeRows (rows++(issued c).map dataRow) := by
      simp [appended, writeRows_append]
    rw [List.foldl_cons, hc, ih, List.flatMap_cons, List.map_append, List.append_assoc]

/-- The first call writes the header, and no later one does. -/
theorem appended_new (c : Invocation) (calls : List Invocation) :
    (c::calls).foldl (fun file c => some (appended file c)) none =
      some (writeRows (header::((c::calls).flatMap issued).map dataRow)) := by
  have hc : appended none c = writeRows (header::(issued c).map dataRow) := by
    simp [appended, writeRows]
  rw [List.foldl_cons, hc, appended_written, List.flatMap_cons, List.map_append, List.cons_append]

theorem find?_of_hash {rows : List Account} (hn : (rows.filterMap Account.apiKeyHash).Nodup)
    {a : Account} (ha : a ∈ rows) {hash : String} (hh : a.apiKeyHash = some hash) :
    rows.find? (fun x => x.apiKeyHash = some hash) = some a := by
  induction rows with
  | nil => cases ha
  | cons x rows ih =>
    rcases List.mem_cons.mp ha with rfl | ha
    · exact List.find?_cons_of_pos (by simpa using hh)
    · cases hx : x.apiKeyHash with
      | none =>
        rw [List.filterMap_cons_none hx] at hn
        rw [List.find?_cons_of_neg (by simp [hx])]
        exact ih hn ha
      | some k =>
        rw [List.filterMap_cons_some hx, List.nodup_cons] at hn
        have hk : k ≠ hash := by
          rintro rfl
          exact hn.1 (List.mem_filterMap.mpr ⟨a,ha,hh⟩)
        rw [List.find?_cons_of_neg (by simp [hx, hk])]
        exact ih hn.2 ha

/-- A hash is found with the account it belongs to. -/
theorem getByApiKeyHash_of_mem {t : Accounts} {a : Account} (ha : a ∈ t.rows) {hash : String}
    (hh : a.apiKeyHash = some hash) : getByApiKeyHash t hash = some ⟨a.id,some hash⟩ := by
  rw [getByApiKeyHash, find?_of_hash t.hashes ha hh, Option.map_some, hh]

theorem hashes_issued (ps : List (AccountId × String)) :
    (ps.map (account sha256)).filterMap Account.apiKeyHash = ps.map (fun p => sha256 p.2.toUTF8) := by
  simp [List.filterMap_map, account]

theorem length_issued (calls : List Invocation) :
    (calls.flatMap issued).length = (calls.map Invocation.count).sum := by
  induction calls with
  | nil => rfl
  | cons c calls ih => simp [List.flatMap_cons, ih, issued]

/-- After any completed calls, a file that was new before them has its header
and a row for every account they created for it. The key in a row
authenticates the account whose id is beside it, and no id and no key comes
twice. -/
theorem provisioned_keys (sha256 : ByteArray → String) (w w' : World) (calls : List Invocation)
    (out : String) (hnew : w.files out = none)
    (hrun : LabelledRuns.run (createAccounts sha256) w calls = some w')
    (hcalls : calls.filter (fun c => c.out = out) ≠ []) :
    ∃ rows : List (AccountId × String),
      (w'.files out).map read = some (header::rows.map dataRow) ∧
      rows.length = ((calls.filter (fun c => c.out = out)).map Invocation.count).sum ∧
      (∀ row ∈ rows, authenticate sha256 w'.accounts row.2 =
        some ⟨row.1,some (sha256 row.2.toUTF8)⟩) ∧
      (rows.map Prod.fst).Nodup ∧ (rows.map Prod.snd).Nodup := by
  have hrows := accounts_of_run hrun
  have hsub : ((calls.filter (fun c => c.out = out)).flatMap issued).Sublist
      (calls.flatMap issued) := List.filter_sublist.flatMap issued
  refine ⟨(calls.filter (fun c => c.out = out)).flatMap issued,?_,length_issued _,?_,?_,?_⟩
  · obtain ⟨c,cs,hc⟩ := List.exists_cons_of_ne_nil hcalls
    rw [file_of_run out hrun, hnew, hc, appended_new, Option.map_some, read_writeRows]
  · intro row hrow
    have hmem : account sha256 row ∈ w'.accounts.rows := by
      rw [hrows]
      exact List.mem_append_right _ (List.mem_map_of_mem (hsub.subset hrow))
    exact getByApiKeyHash_of_mem hmem rfl
  · have hids := w'.accounts.ids
    rw [hrows, List.map_append, List.map_map] at hids
    exact (hids.of_append_right).sublist (hsub.map Prod.fst)
  · have hhashes := w'.accounts.hashes
    rw [hrows, List.filterMap_append] at hhashes
    have hkeys : (((calls.flatMap issued).map Prod.snd).map
        (fun key => sha256 key.toUTF8)).Nodup := by
      rw [List.map_map]
      rw [hashes_issued] at hhashes
      exact hhashes.of_append_right
    exact (List.Nodup.of_map _ hkeys).sublist (hsub.map Prod.snd)

def sampleDigest (b : ByteArray) : String :=
  if b = "KFVP_azOvX7LnzE6cuJy4n_j8sex0Vscan31o2F2ndg".toUTF8 then
    "ae0c8d52c00f792326c6c53f280cc29be92617ffbb5bc8d5c0099fca5c1e28b5"
  else if b = "357PTHnlrXdwHPyIwZZjKzUxSdhYEKOB9Gn4_AXcG5I".toUTF8 then
    "96a7785d42ad4f2e6e90a0280372635ff554e0bca60d13723b07674f67835849"
  else "e59fc997a03beb7c01717a9ffed0051862da99b335f154d8560f2dc2e3eb9f19"

def sampleToken : ℕ → String
  | 0 => "KFVP_azOvX7LnzE6cuJy4n_j8sex0Vscan31o2F2ndg"
  | 1 => "357PTHnlrXdwHPyIwZZjKzUxSdhYEKOB9Gn4_AXcG5I"
  | _ => "NbD60WdYtYEk858A0mBhcEUUvk45weA7eyNTSv1ggeM"

def noAccounts : World := ⟨⟨[],List.nodup_nil,List.nodup_nil⟩,fun _ => none⟩

def twoCalls : List Invocation :=
  [⟨2,"local/accounts.csv",sampleToken,fun i => i+1⟩,
    ⟨1,"local/accounts.csv",fun i => sampleToken (i+2),fun i => i+3⟩]

theorem provisioned_sample : ∃ w', LabelledRuns.run (createAccounts sampleDigest) noAccounts twoCalls =
      some w' ∧ ∃ rows : List (AccountId × String),
      (w'.files "local/accounts.csv").map read = some (header::rows.map dataRow) ∧
      rows.length = 3 ∧
      (∀ row ∈ rows, authenticate sampleDigest w'.accounts row.2 =
        some ⟨row.1,some (sampleDigest row.2.toUTF8)⟩) ∧
      (rows.map Prod.fst).Nodup ∧ (rows.map Prod.snd).Nodup := by
  have hsome : (LabelledRuns.run (createAccounts sampleDigest) noAccounts twoCalls).isSome = true := by
    decide +kernel
  obtain ⟨w',hrun⟩ := Option.isSome_iff_exists.mp hsome
  exact ⟨w',hrun,provisioned_keys sampleDigest noAccounts w' twoCalls "local/accounts.csv" rfl hrun
    (by simp [twoCalls])⟩

structure Fresh (sha256 : ByteArray → String) (t : Accounts) (c : Invocation) : Prop where
  ids : ((issued c).map Prod.fst).Nodup
  newIds : ∀ p ∈ issued c, p.1 ∉ t.rows.map Account.id
  keys : ((issued c).map Prod.snd).Nodup
  noCollision : ∀ p ∈ issued c, ∀ q ∈ issued c,
    sha256 p.2.toUTF8 = sha256 q.2.toUTF8 → p.2 = q.2
  newHashes : ∀ p ∈ issued c, sha256 p.2.toUTF8 ∉ t.rows.filterMap Account.apiKeyHash

/-- Then neither unique constraint stands in the way of the call. -/
theorem createAccounts_completes {c : Invocation} (h : Fresh sha256 w.accounts c) :
    (createAccounts sha256 w c).isSome = true := by
  have hids : ((w.accounts.rows++(issued c).map (account sha256)).map Account.id).Nodup := by
    rw [List.map_append, List.map_map, List.nodup_append']
    refine ⟨w.accounts.ids,h.ids,fun id hid hnew => ?_⟩
    obtain ⟨p,hp,rfl⟩ := List.mem_map.mp hnew
    exact h.newIds p hp hid
  have hhashes : ((w.accounts.rows++(issued c).map (account sha256)).filterMap
      Account.apiKeyHash).Nodup := by
    rw [List.filterMap_append, hashes_issued, List.nodup_append']
    refine ⟨w.accounts.hashes,?_,fun hash hold hnew => ?_⟩
    · have hmap := h.keys.map_on (f := fun key : String => sha256 key.toUTF8) (by
        intro x hx y hy hxy
        obtain ⟨p,hp,rfl⟩ := List.mem_map.mp hx
        obtain ⟨q,hq,rfl⟩ := List.mem_map.mp hy
        exact h.noCollision p hp q hq hxy)
      rwa [List.map_map] at hmap
    · obtain ⟨p,hp,rfl⟩ := List.mem_map.mp hnew
      exact h.newHashes p hp hold
  rw [createAccounts_eq, Accounts.insertAll, dif_pos ⟨hids,hhashes⟩]
  rfl

def lookups (sha256 : ByteArray → String) (t : Accounts) (_ : Unit) :
    (c : Adapters.LibCall) → Option (Except Adapters.Thrown c.Resp × Unit)
  | .selectAccount apiKey => some (.ok ((authenticate sha256 t apiKey).map AccountDTO.id),())
  | _ => none

/-- A key that authenticates is served as its own account. -/
theorem served_as {t : Accounts} {apiKey : String} {dto : AccountDTO}
    (h : authenticate sha256 t apiKey = some dto) :
    evaluate (lookups sha256 t) (Adapters.authenticate apiKey) () = some (.ok dto.id,()) := by
  simp only [Adapters.authenticate, Adapters.getAccount, Adapters.catching, Adapters.invoke,
    bind_eq, andThen, tryExcept, perform, attempt, evaluate, lookups, h, Option.map_some,
    Option.bind_some, EffectProgram.ofExcept]
  rfl

end Calls

end DocPipeline.Provisioning
