import DocPipeline.Timeline
import DocPipeline.Artifacts
import DocPipeline.Migrations

/-!
# The tables of a run obey the migrated schema

The statements of the repositories are modelled without the constraints of
the database. The catalogue at the head revision has them all; no commit of a
run can violate one, so none of them is missed.
-/

set_option autoImplicit false

namespace DocPipeline.Catalogued
open DocPipeline.Identifiers DocPipeline.Records DocPipeline.Database DocPipeline.Calls
open DocPipeline.Consumer DocPipeline.Routes DocPipeline.System DocPipeline.Moves
open DocPipeline.Effects DocPipeline.Transactions DocPipeline.Pending DocPipeline.Ledger
open DocPipeline.Exclusion DocPipeline.Bookkeeping DocPipeline.Artifacts DocPipeline.Timeline
open DocPipeline.Migrations LabelledRuns EffectProgram KeyedTable RelationalSchema

section Models

def account : List (Column TableName ColumnName ObjectName Migrations.Label) :=
  [serialId .accounts,column .accounts .apiKeyHash .string true]

def document : List (Column TableName ColumnName ObjectName Migrations.Label) :=
  [column .documents .id .uuid false,column .documents .objectKey .string false,
    column .documents .accountId .integer false,column .documents .createdAt .timestamp false]

def job : List (Column TableName ColumnName ObjectName Migrations.Label) :=
  [column .jobs .id .uuid false,column .jobs .accountId .integer false,
    column .jobs .documentId .uuid false,
    ⟨.jobs,.status,.enum .jobStatusEnum,false,some (.value (.label .queued))⟩,
    column .jobs .artifactTypes (.enumArray .artifactTypeEnum) false,
    ⟨.jobs,.attempts,.integer,false,some (.value (.integer 0))⟩,
    ⟨.jobs,.maxAttempts,.integer,false,some (.value (.integer 3))⟩,
    column .jobs .errorMessage .string true,column .jobs .createdAt .timestamp false,
    column .jobs .queuedAt .timestamp true,column .jobs .startedAt .timestamp true,
    column .jobs .completedAt .timestamp true,column .jobs .lastAttemptAt .timestamp true,
    column .jobs .failedAt .timestamp true]

def artifact : List (Column TableName ColumnName ObjectName Migrations.Label) :=
  [column .artifacts .id .uuid false,column .artifacts .jobId .uuid false,
    column .artifacts .documentId .uuid false,
    column .artifacts .artifactType (.enum .artifactTypeEnum) false,
    column .artifacts .objectKey .string false,column .artifacts .createdAt .timestamp false]

/-- `Base.metadata`. Constraints without a name have that of the database. -/
def metadata : Catalogue where
  types := [(.jobStatusEnum,[.queued,.started,.completed,.failed]),(.artifactTypeEnum,[.markdown])]
  columns := account++document++job++artifact
  uniques := [unique .accountsPkey .accounts [.id],unique .accountsApiKeyHashKey .accounts [.apiKeyHash],
    unique .documentsPkey .documents [.id],unique .documentsObjectKeyKey .documents [.objectKey],
    unique .jobsPkey .jobs [.id],unique .artifactsPkey .artifacts [.id],
    unique .artifactsDocumentIdArtifactTypeKey .artifacts [.documentId,.artifactType]]
  foreignKeys := [foreignKey .documentsAccountIdFkey .documents .accountId .accounts,
    foreignKey .jobsAccountIdFkey .jobs .accountId .accounts,
    foreignKey .jobsDocumentIdFkey .jobs .documentId .documents,
    foreignKey .artifactsJobIdFkey .artifacts .jobId .jobs,
    foreignKey .artifactsDocumentIdFkey .artifacts .documentId .documents]
  sequences := [(.accounts,.integer)]

structure Declared (schema classes : Catalogue) : Prop where
  types : schema.types.Perm classes.types
  columns : schema.columns.Perm classes.columns
  uniques : schema.uniques.Perm (oneActiveJob [.queued,.started]::classes.uniques)
  foreignKeys : schema.foreignKeys.Perm classes.foreignKeys
  sequences : schema.sequences = classes.sequences

theorem catalogue_metadata : Declared (schemaAt head) metadata := by
  constructor <;> decide +kernel

theorem hasTable_metadata (t : TableName) :
    metadata.hasTable t = true ∧ (schemaAt head).hasTable t = true := by
  revert t
  decide +kernel

/-- The rows that the database admits are those that the classes admit and
the partial index as well. -/
theorem admits_iff (d : Contents) : Admits (schemaAt head) d ↔
    Admits metadata d ∧ (oneActiveJob [.queued,.started]).Holds d := by
  obtain ⟨htypes,hcolumns,huniques,hkeys,-⟩ := catalogue_metadata
  have hholds : ∀ c : Column TableName ColumnName ObjectName Migrations.Label,
      c.Holds (schemaAt head).types d ↔ c.Holds metadata.types d := fun c => by
    simp only [Column.Holds, fits_perm htypes]
  have hno : ∀ {P : Prop} {t : TableName} {s : Catalogue}, s.hasTable t = true →
      s.hasTable t = false → P := fun h h' => by
    rw [h] at h'
    cases h'
  constructor
  · intro h
    exact ⟨⟨fun t ht => hno (hasTable_metadata t).1 ht,
      fun c hc => (hholds c).mp (h.columns c (hcolumns.mem_iff.mpr hc)),
      fun u hu => h.uniques u (huniques.mem_iff.mpr (List.mem_cons_of_mem _ hu)),
      fun k hk => h.foreignKeys k (hkeys.mem_iff.mpr hk)⟩,
      h.uniques _ (huniques.mem_iff.mpr List.mem_cons_self)⟩
  · rintro ⟨h,hindex⟩
    refine ⟨fun t ht => hno (hasTable_metadata t).2 ht,
      fun c hc => (hholds c).mpr (h.columns c (hcolumns.mem_iff.mp hc)),fun u hu => ?_,
      fun k hk => h.foreignKeys k (hkeys.mem_iff.mp hk)⟩
    rcases List.mem_cons.mp (huniques.mem_iff.mp hu) with rfl | hu
    · exact hindex
    · exact h.uniques u hu

end Models

section Rows

def statusLabel : JobStatus → Migrations.Label
  | .queued => .queued
  | .started => .started
  | .completed => .completed
  | .failed => .failed

def typeLabel : ArtifactType → Migrations.Label
  | .markdown => .markdown

def time : Option Time → Value Migrations.Label
  | some t => .timestamp t
  | none => .null

def documentRecord (r : DocumentRow) : Record
  | .id => .uuid r.id
  | .objectKey => .text r.objectKey
  | .accountId => .integer r.accountId
  | .createdAt => .timestamp r.createdAt
  | _ => .null

def jobRecord (r : JobRow) : Record
  | .id => .uuid r.id
  | .accountId => .integer r.accountId
  | .documentId => .uuid r.documentId
  | .status => .label (statusLabel r.status)
  | .artifactTypes => .labels (r.artifactTypes.map fun t => some (typeLabel t))
  | .attempts => .integer r.attempts
  | .maxAttempts => .integer r.maxAttempts
  | .errorMessage => r.errorMessage.elim .null .text
  | .createdAt => .timestamp r.createdAt
  | .queuedAt => time r.queuedAt
  | .startedAt => time r.startedAt
  | .completedAt => time r.completedAt
  | .lastAttemptAt => time r.lastAttemptAt
  | .failedAt => time r.failedAt
  | _ => .null

def artifactRecord (r : ArtifactRow) : Record
  | .id => .uuid r.id
  | .jobId => .uuid r.jobId
  | .documentId => .uuid r.documentId
  | .artifactType => .label (typeLabel r.artifactType)
  | .objectKey => .text r.objectKey
  | .createdAt => .timestamp r.createdAt
  | _ => .null

/-- The rows of the database; nothing of a run writes to `accounts`. -/
def contents (accounts : List Record) (db : Tables) : Contents
  | .accounts => accounts
  | .documents => db.documents.rows.map documentRecord
  | .jobs => db.jobs.rows.map jobRecord
  | .artifacts => db.artifacts.rows.map artifactRecord

def Exists (accounts : List Record) (a : AccountId) : Prop :=
  ∃ row ∈ accounts, row .id = .integer a

/-- A request comes with an authenticated account, and the default of
`max_attempts` is a positive number of the column's type. -/
def Authentic (accounts : List Record) (_ : State) : System.Label → Prop
  | .arrive _ a _ => Exists accounts a
  | .serve _ o _ => 1 ≤ o.maxAttempts ∧ o.maxAttempts < 2^31
  | _ => True

end Rows

section Tracking
variable {threshold : ℕ} {s s' : State} {l : System.Label} {σ σ' : World} {p : Proc} {c : Call}
  {accounts : List Record}

def Registered (σ : World) (row : DocumentRow) : Prop :=
  (∃ id, σ.db.documents.get id = some row) ∨ ∃ q, .insertDocument row ∈ σ.writesOf q

theorem Registered.congr {row : DocumentRow} (h : Registered σ' row) (hdb : σ'.db = σ.db)
    (hw : ∀ q, ∀ w ∈ σ'.writesOf q, w ∈ σ.writesOf q) : Registered σ row := by
  rcases h with ⟨id,h⟩ | ⟨q,h⟩
  · exact Or.inl ⟨id,hdb ▸ h⟩
  · exact Or.inr ⟨q,hw q _ h⟩

theorem Registered.add {row : DocumentRow} {w : Write} (ids : List Uuid)
    (h : Registered { σ.addWrite p w with minted := ids } row) :
    Registered σ row ∨ w = .insertDocument row := by
  rcases h with h | ⟨q,h⟩
  · exact Or.inl (Or.inl h)
  · have h : .insertDocument row ∈ (σ.addWrite p w).writesOf q := h
    rw [writesOf_addWrite] at h
    split at h
    · rename_i hq
      rcases List.mem_append.mp h with h | h
      · exact Or.inl (Or.inr ⟨q,hq ▸ h⟩)
      · exact Or.inr (List.mem_singleton.mp h).symm
    · exact Or.inl (Or.inr ⟨q,h⟩)

/-- Where the documents after a call come from. -/
theorem registered_effect {row : DocumentRow} (he : Effect σ p c σ') (h : Registered σ' row) :
    Registered σ row ∨ ∃ dto, c = .createDocument dto ∧ row.accountId = dto.accountId := by
  cases he with
  | same => exact Or.inl h
  | discard => exact Or.inl (h.congr rfl (fun q w hw => mem_discard hw))
  | commit =>
    rcases h with ⟨id,h⟩ | ⟨q,h⟩
    · rcases documents_foldl _ h with h | ⟨h,-⟩
      · exact Or.inl (Or.inl ⟨id,h⟩)
      · exact Or.inl (Or.inr ⟨p,h⟩)
    · exact Or.inl (Or.inr ⟨q,mem_discard h⟩)
  | insertDocument now =>
    rcases h.add σ.minted with h | h
    · exact Or.inl h
    · exact Or.inr ⟨_,rfl,by rw [← Write.insertDocument.inj h]; rfl⟩
  | insertJob => exact Or.inl ((h.add _).resolve_right (by simp))
  | update => exact Or.inl ((h.add σ.minted).resolve_right (by simp))
  | upsertArtifact id now => exact Or.inl ((h.add _).resolve_right (by simp))
  | ack => exact Or.inl (h.congr (settle_db σ p) (fun q w hw => by
      rwa [writesOf_congr (settle_inflight σ p)] at hw))
  | nack => exact Or.inl (h.congr (requeue_db σ p) (fun q w hw => by
      rwa [writesOf_congr (requeue_inflight σ p)] at hw))
  | respond response => exact Or.inl (h.congr (send_db σ p response) (fun q w hw => by
      rwa [writesOf_congr (send_inflight σ p response)] at hw))
  | _ => exact Or.inl (h.congr rfl (fun q w hw => hw))

structure Tracked (accounts : List Record) (s : State) : Prop where
  requests : ∀ r q, s.requests r = some q → Exists accounts q.account
  documents : ∀ row, Registered s.world row → Exists accounts row.accountId
  jobs : ∀ row, Written s.world row → 1 ≤ row.maxAttempts ∧ row.maxAttempts < 2^31

theorem viewStage_createDocument {x : Stage} {dto : CreateDocumentDTO}
    {k : Except Exc DocumentRow → Stage} (hv : viewStage threshold x = .calls (.createDocument dto) k) :
    ∃ id, x = .insertDocument dto.accountId id := by
  cases x <;> cases hv
  exact ⟨_,rfl⟩

/-- A written row keeps its budget. -/
theorem budget_fresh {o : Oracle} {row : JobRow}
    (h : ∀ x, Written σ x → 1 ≤ x.maxAttempts ∧ x.maxAttempts < 2^31)
    (ho : ∀ dto, c = .createJob dto → 1 ≤ o.maxAttempts ∧ o.maxAttempts < 2^31)
    (hf : Fresh σ o row c) : 1 ≤ row.maxAttempts ∧ row.maxAttempts < 2^31 := by
  cases c with
  | createJob dto =>
    obtain rfl : row = _ := hf
    exact ho dto rfl
  | updateStatus job status expected err =>
    obtain ⟨old,hold,-,rfl⟩ := hf
    rw [updated_maxAttempts]
    exact h old (Or.inl ⟨job,hold⟩)
  | _ => cases hf

theorem requests_step (h : ∀ r q, s.requests r = some q → Exists accounts q.account)
    (hok : Authentic accounts s l) (hm : Move threshold s l s') {r : ℕ} {q : Request}
    (hq : s'.requests r = some q) : Exists accounts q.account := by
  by_cases hat : requestAt l = some r
  · cases hm with
    | arrive account route hr =>
      obtain rfl := Option.some.inj hat
      obtain rfl := Option.some.inj ((setStage_self _ _ _ _).symm.trans hq)
      exact hok
    | @serve v x c k o out y σ hx hv he =>
      obtain rfl := Option.some.inj hat
      obtain rfl := Option.some.inj ((setStage_self _ _ _ _).symm.trans hq)
      exact h v x hx
    | @abort v x hx =>
      obtain rfl := Option.some.inj hat
      obtain rfl := Option.some.inj ((setStage_self _ _ _ _).symm.trans hq)
      exact h v x hx
    | _ => cases hat
  · rw [frame_request hm hat] at hq
    exact h r q hq

theorem Tracked.step (h : Tracked accounts s) (hs : Sound s) (hok : Authentic accounts s l)
    (hm : Move threshold s l s') : Tracked accounts s' := by
  cases l with
  | call w o out =>
    cases hm with
    | @call w m p c k o out r σ hw hv he =>
      refine ⟨h.requests,fun row hrow => ?_,fun row hrow => ?_⟩
      · rcases registered_effect (exec_effect he) (hrow.congr rfl (fun q w hw => hw)) with
          hrow | ⟨dto,rfl,-⟩
        · exact h.documents row hrow
        · cases p <;> cases hv
      · rcases written_exec he (hrow.congr rfl (fun q w hw => hw)) with hrow | hf
        · exact h.jobs row hrow
        · refine budget_fresh h.jobs (fun dto hc => ?_) hf
          subst hc
          cases p <;> cases hv
  | serve q o out =>
    cases hm with
    | @serve _ x c k _ _ r σ hq hv he =>
      refine ⟨fun i y hy => requests_step h.requests hok (.serve hq hv he) hy,
        fun row hrow => ?_,fun row hrow => ?_⟩
      · rcases registered_effect (exec_effect he) (hrow.congr rfl (fun q w hw => hw)) with
          hrow | ⟨dto,rfl,hacc⟩
        · exact h.documents row hrow
        · obtain ⟨id,hx⟩ := viewStage_createDocument hv
          have hop := hs.opened.requests q
          rw [hq] at hop
          simp only [openedRequest, hx, openedStage] at hop
          rw [hacc, hop.2]
          exact h.requests q x hq
      · rcases written_exec he (hrow.congr rfl (fun q w hw => hw)) with hrow | hf
        · exact h.jobs row hrow
        · exact budget_fresh h.jobs (fun _ _ => hok) hf
  | _ =>
    have hi := move_idle hm (by simp) (by simp)
    have hwrites : ∀ q, ∀ w ∈ s'.world.writesOf q, w ∈ s.world.writesOf q := by
      intro q w hw
      rcases hi.writes q with he | he <;> rw [he] at hw
      · exact hw
      · cases hw
    exact ⟨fun r q hq => requests_step h.requests hok hm hq,
      fun row hrow => h.documents row (hrow.congr hi.db hwrites),
      fun row hrow => h.jobs row (hrow.congr hi.db hwrites)⟩

theorem tracked_of_trail {t : List (State × System.Label)} (ht : Trail (step threshold) init t s)
    (ha : Allowed (Authentic accounts) t) : Tracked accounts s := by
  refine ht.invariant (Authentic accounts) ⟨?_,?_,?_⟩
    (fun s l s' hr h hok hs => h.step (sound_of_reachable hr) hok (step_move hs)) ha
  · rintro r q ⟨⟩
  · rintro row (⟨id,h⟩ | ⟨q,h⟩) <;> cases h
  · rintro row (⟨id,h⟩ | ⟨q,h | ⟨old,h⟩⟩) <;> cases h

def stampOf : Write → Option Uuid
  | .upsertArtifact a => some a.id
  | _ => none

def stamps (σ : World) : Multiset Uuid :=
  ↑(σ.db.artifacts.rows.map ArtifactRow.id)+↑(σ.inflight.filterMap fun e => stampOf e.2)

structure Stamped (σ : World) : Prop where
  nodup : (stamps σ).Nodup
  minted : ∀ id ∈ stamps σ, id ∈ σ.minted

theorem Stamped.le (h : Stamped σ) (hle : stamps σ' ≤ stamps σ)
    (hm : ∀ id ∈ σ.minted, id ∈ σ'.minted) : Stamped σ' where
  nodup := Multiset.nodup_of_le hle h.nodup
  minted id hid := hm id (h.minted id (Multiset.mem_of_le hle hid))

theorem stamps_congr (hdb : σ'.db = σ.db) (hi : σ'.inflight = σ.inflight) :
    stamps σ' = stamps σ := by
  rw [stamps, stamps, hdb, hi]

theorem stamps_discard (σ : World) (p : Proc) : stamps (σ.discard p) ≤ stamps σ :=
  Multiset.add_le_add_left (Multiset.coe_le.mpr (List.filter_sublist.filterMap _).subperm)

theorem stamps_addWrite (σ : World) (p : Proc) (w : Write) (ids : List Uuid) :
    stamps { σ.addWrite p w with minted := ids } = stamps σ+↑(stampOf w).toList := by
  simp only [stamps, World.addWrite, List.filterMap_append, ← Multiset.coe_add, add_assoc]
  cases h : stampOf w <;> simp [h]

/-- An upsert stores its identifier or keeps the one that is stored. -/
theorem stamps_apply (db : Tables) (w : Write) :
    (↑((w.apply db).artifacts.rows.map ArtifactRow.id) : Multiset Uuid) ≤
      ↑(db.artifacts.rows.map ArtifactRow.id)+↑(stampOf w).toList := by
  cases w with
  | insertDocument row => exact Multiset.le_add_right _ _
  | insertJob row => exact Multiset.le_add_right _ _
  | updateJob old new => exact Multiset.le_add_right _ _
  | upsertArtifact a =>
    simp only [Write.apply, Table.upsert]
    cases h : db.artifacts.get a.slot with
    | none =>
      simp only [Table.insert, h, dite_true, List.map_cons, stampOf, Option.toList_some,
        ← Multiset.cons_coe, ← Multiset.singleton_add]
      exact (add_comm _ _).le
    | some old =>
      refine le_trans (le_of_eq (congrArg _ ?_)) (Multiset.le_add_right _ _)
      simp only [Table.put, List.map_map]
      refine List.map_congr_left fun x hx => ?_
      simp only [Function.comp]
      split
      · rename_i hkey
        have hget := Table.get_of_mem hx
        rw [hkey, slot_refresh, Table.key_of_get h, h] at hget
        obtain rfl := Option.some.inj hget
        rfl
      · rfl

theorem stamps_foldl (ws : List Write) (db : Tables) :
    (↑((ws.foldl Write.apply db).artifacts.rows.map ArtifactRow.id) : Multiset Uuid) ≤
      ↑(db.artifacts.rows.map ArtifactRow.id)+↑(ws.filterMap stampOf) := by
  induction ws generalizing db with
  | nil => simp
  | cons w ws ih =>
    refine (ih (w.apply db)).trans ?_
    refine (Multiset.add_le_add_right (stamps_apply db w)).trans (le_of_eq ?_)
    rw [add_assoc, List.filterMap_cons]
    cases stampOf w with
    | none => simp
    | some id => simp [← Multiset.cons_coe, ← Multiset.singleton_add]

theorem stamps_commit (σ : World) (p : Proc) : stamps (σ.commit p) ≤ stamps σ := by
  have hsplit : (↑(σ.inflight.filterMap fun e => stampOf e.2) : Multiset Uuid) =
      ↑((σ.writesOf p).filterMap stampOf)+
        ↑((σ.inflight.filter fun e => e.1 ≠ p).filterMap fun e => stampOf e.2) := by
    have hperm := (List.filter_append_perm (fun e => decide (e.1 = p)) σ.inflight).filterMap
      (fun e => stampOf e.2)
    rw [List.filterMap_append] at hperm
    rw [← Multiset.coe_eq_coe.mpr hperm, ← Multiset.coe_add, World.writesOf, List.filterMap_map]
    simp only [decide_not]
    rfl
  unfold stamps
  rw [hsplit, ← add_assoc]
  exact Multiset.add_le_add_right (stamps_foldl _ _)

theorem Stamped.effect (h : Stamped σ) (he : Effect σ p c σ') : Stamped σ' := by
  have hm : ∀ id ∈ σ.minted, id ∈ σ'.minted := he.minted
  cases he with
  | same => exact h
  | discard => exact h.le (stamps_discard σ p) hm
  | commit => exact h.le (stamps_commit σ p) hm
  | insertDocument now =>
    refine h.le (le_of_eq ?_) hm
    exact (stamps_addWrite σ p _ σ.minted).trans (add_zero _)
  | insertJob id m now again =>
    refine h.le (le_of_eq ?_) hm
    exact (stamps_addWrite σ p _ _).trans (add_zero _)
  | update now again =>
    refine h.le (le_of_eq ?_) hm
    exact (stamps_addWrite σ p _ σ.minted).trans (add_zero _)
  | upsertArtifact id now hfresh =>
    have hnew := fun dto => stamps_addWrite σ p (.upsertArtifact (newArtifact dto id now)) (id::σ.minted)
    refine ⟨?_,fun x hx => ?_⟩
    · rw [hnew, add_comm]
      exact Multiset.nodup_cons.mpr ⟨fun hid => hfresh (h.minted id hid),h.nodup⟩
    · rw [hnew, Multiset.mem_add] at hx
      rcases hx with hx | hx
      · exact List.mem_cons_of_mem _ (h.minted x hx)
      · obtain rfl : x = id := List.mem_singleton.mp (Multiset.mem_coe.mp hx)
        exact List.mem_cons_self
  | ack => exact h.le (stamps_congr (settle_db σ p) (settle_inflight σ p)).le hm
  | nack => exact h.le (stamps_congr (requeue_db σ p) (requeue_inflight σ p)).le hm
  | respond response =>
    exact h.le (stamps_congr (send_db σ p response) (send_inflight σ p response)).le hm
  | _ => exact h.le (le_refl _) hm

theorem stamped_endWorker (h : Stamped s.world) (w : ℕ) : Stamped (s.endWorker w).world :=
  h.le ((stamps_congr (requeue_db _ _) (requeue_inflight _ _)).le.trans
    (stamps_discard s.world (.worker w))) (fun _ hid => (requeue_minted _ _).symm ▸ hid)

theorem Stamped.step (h : Stamped s.world) (hm : Move threshold s l s') : Stamped s'.world := by
  cases hm with
  | call hw hv he =>
    have hσ := h.effect (exec_effect he)
    exact ⟨hσ.nodup,hσ.minted⟩
  | serve hq hv he =>
    have hσ := h.effect (exec_effect he)
    exact ⟨hσ.nodup,hσ.minted⟩
  | stop hw => exact stamped_endWorker h _
  | die hw => exact stamped_endWorker h _
  | lose hw hu =>
    exact h.le (stamps_congr (requeue_db _ _) (requeue_inflight _ _)).le
      (fun _ hid => (requeue_minted _ _).symm ▸ hid)
  | abort hq => exact h.le (stamps_discard _ _) (fun _ hid => hid)
  | _ => exact ⟨h.nodup,h.minted⟩

theorem stamped_of_reachable (h : Reachable (step threshold) init s) : Stamped s.world := by
  refine h.invariant (I := fun s => Stamped s.world) ⟨?_,?_⟩
    (fun _ _ _ _ hs hstep => hs.step (step_move hstep))
  · exact Multiset.nodup_zero
  · rintro _ ⟨⟩

end Tracking

section Admission
variable {threshold : ℕ} {s : State} {accounts : List Record} {db : Tables}

structure Orderly (accounts : List Record) (db : Tables) : Prop where
  owners : ∀ row ∈ db.documents.rows, Exists accounts row.accountId
  keys : ∀ row ∈ db.documents.rows, row.objectKey = rawKey row.accountId row.id
  attempts : ∀ row ∈ db.jobs.rows, row.attempts < 2^31
  maxAttempts : ∀ row ∈ db.jobs.rows, row.maxAttempts < 2^31
  document : ∀ row ∈ db.jobs.rows, ∃ d ∈ db.documents.rows, d.id = row.documentId ∧
    d.accountId = row.accountId
  oneActive : ∀ a ∈ db.jobs.rows, ∀ b ∈ db.jobs.rows, a.status.active = true →
    b.status.active = true → a.accountId = b.accountId → a.documentId = b.documentId → a.id = b.id
  job : ∀ row ∈ db.artifacts.rows, ∃ j ∈ db.jobs.rows, j.id = row.jobId ∧
    j.documentId = row.documentId
  stamps : (db.artifacts.rows.map ArtifactRow.id).Nodup

theorem lastCompleted_row {log : List Event} {d j : Uuid} (h : lastCompleted db d log = some j) :
    ∃ row, db.jobs.get j = some row ∧ row.documentId = d := by
  obtain ⟨e,-,he⟩ := List.exists_of_findSome?_eq_some h
  obtain ⟨-,hd⟩ := Option.filter_eq_some_iff.mp he
  obtain ⟨row,hrow,hdoc⟩ := (Option.any_eq_true _ _).mp hd
  exact ⟨row,hrow,by simpa using hdoc⟩

/-- The type of a slot is the one there is. -/
theorem slot_eq (row : ArtifactRow) : row.slot = (row.documentId,.markdown) := by
  unfold ArtifactRow.slot
  cases row.artifactType
  rfl

theorem attempts_le {row : JobRow} (h : InBudget row) : row.attempts ≤ row.maxAttempts := by
  unfold InBudget at h
  split at h <;> omega

theorem orderly_of_trail {t : List (State × System.Label)} (ht : Trail (step threshold) init t s)
    (ha : Allowed (Authentic accounts) t) : Orderly accounts s.world.db := by
  have hr : Reachable (step threshold) init s := ⟨t,ht⟩
  have hb := book_of_reachable hr
  have htrack := tracked_of_trail ht ha
  have hjob : ∀ row ∈ s.world.db.jobs.rows, 1 ≤ row.maxAttempts ∧ row.maxAttempts < 2^31 :=
    fun row hrow => htrack.jobs row (Or.inl ⟨row.id,Table.get_of_mem hrow⟩)
  refine ⟨fun row hrow => ?_,fun row hrow => ?_,fun row hrow => ?_,fun row hrow => (hjob row hrow).2,
    fun row hrow => ?_,fun a hx b hy hact hact' hacc hdoc => ?_,fun row hrow => ?_,?_⟩
  · exact htrack.documents row (Or.inl ⟨row.id,Table.get_of_mem hrow⟩)
  · exact book_rawKey hb (Table.get_of_mem hrow)
  · have hle := attempts_le (book_budget hb (Table.get_of_mem hrow) (hjob row hrow).1)
    exact hle.trans_lt (hjob row hrow).2
  · obtain ⟨d,hd,hacc⟩ := book_owner hb (Table.get_of_mem hrow)
    exact ⟨d,Table.mem_of_get hd,Table.key_of_get hd,hacc⟩
  · exact book_unique hb (Table.get_of_mem hx) (Table.get_of_mem hy) hact hact' hacc hdoc
  · have hlatest := book_latest hb row.documentId
    rw [← slot_eq, Table.get_of_mem hrow] at hlatest
    obtain ⟨j,hj,hdoc⟩ := lastCompleted_row hlatest.symm
    exact ⟨j,Table.mem_of_get hj,Table.key_of_get hj,hdoc⟩
  · exact (Multiset.nodup_add.mp (stamped_of_reachable hr).nodup).1

def Takes (c : Column TableName ColumnName ObjectName Migrations.Label) (row : Record) : Prop :=
  row c.name = .null ∧ c.nullable = true ∨ fits metadata.types c.type (row c.name) = true

theorem fits_time (t : Option Time) : time t = .null ∨ fits metadata.types .timestamp (time t) = true := by
  cases t
  · exact Or.inl rfl
  · exact Or.inr rfl

theorem takes_document {row : DocumentRow} (ha : -2^31 ≤ row.accountId ∧ row.accountId < 2^31) :
    ∀ c ∈ document, Takes c (documentRecord row) := by
  simp [document, column, Takes, documentRecord, fits]
  exact ha

theorem takes_job {row : JobRow} (ha : -2^31 ≤ row.accountId ∧ row.accountId < 2^31)
    (hn : row.attempts < 2^31) (hm : row.maxAttempts < 2^31) :
    ∀ c ∈ job, Takes c (jobRecord row) := by
  have hstatus : hasLabel metadata.types .jobStatusEnum (statusLabel row.status) = true := by
    cases row.status <;> decide
  have htypes : ∀ t, hasLabel metadata.types .artifactTypeEnum (typeLabel t) = true := by
    rintro ⟨⟩
    decide
  have herror : row.errorMessage.elim Value.null Value.text = (.null : Value Migrations.Label) ∨
      fits metadata.types .string (row.errorMessage.elim .null .text) = true := by
    cases row.errorMessage <;> simp [fits]
  simp [job, column, Takes, jobRecord, fits, hstatus, htypes]
  exact ⟨ha,hn,hm,herror,fits_time _,fits_time _,fits_time _,fits_time _,fits_time _⟩

theorem takes_artifact (row : ArtifactRow) : ∀ c ∈ artifact, Takes c (artifactRecord row) := by
  cases row with
  | mk id jobId documentId artifactType objectKey createdAt =>
    cases artifactType
    simp [artifact, column, Takes, artifactRecord, fits, typeLabel, hasLabel, metadata]

/-- Rows that a unique constraint tells apart by their key. -/
theorem holds_map {ρ κ : Type} {u : Unique TableName ColumnName ObjectName Migrations.Label}
    {d : Contents} {f : ρ → Record} {rows : List ρ} {key : ρ → κ} (hd : d u.table = rows.map f)
    (hn : (rows.map key).Nodup)
    (h : ∀ a ∈ rows, ∀ b ∈ rows, u.Clash (f a) (f b) → key a = key b) : u.Holds d := by
  unfold Unique.Holds
  rw [hd, List.pairwise_map]
  refine (List.pairwise_map.mp hn).imp_of_mem fun ha hb hne hc => ?_
  exact hne (h _ ha _ hb hc)

theorem account_fits {db₀ : Tables} (hacc : Admits metadata (contents accounts db₀)) {a : AccountId}
    (ha : Exists accounts a) : -2^31 ≤ a ∧ a < 2^31 := by
  obtain ⟨row,hrow,hid⟩ := ha
  have hc : serialId .accounts ∈ metadata.columns := by decide
  rcases hacc.columns _ hc row hrow with ⟨-,hn⟩ | hf
  · cases hn
  · rw [show row (serialId .accounts).name = .integer a from hid] at hf
    simpa [serialId, fits] using hf

theorem columns_orderly (hacc : Admits metadata (contents accounts .empty)) (h : Orderly accounts db) :
    ∀ c ∈ metadata.columns, c.Holds metadata.types (contents accounts db) := by
  have hdocument : ∀ c ∈ document, c.table = .documents := by decide
  have hjob : ∀ c ∈ job, c.table = .jobs := by decide
  have hartifact : ∀ c ∈ artifact, c.table = .artifacts := by decide
  intro c hc row hrow
  simp only [metadata, List.mem_append] at hc
  rcases hc with ((hc | hc) | hc) | hc
  · have haccount : ∀ c ∈ account, c.table = .accounts := by decide
    rw [haccount c hc] at hrow
    refine hacc.columns c ?_ row (by rw [haccount c hc]; exact hrow)
    simp only [metadata, List.mem_append]
    exact Or.inl (Or.inl (Or.inl hc))
  · rw [hdocument c hc] at hrow
    obtain ⟨r,hr,rfl⟩ := List.mem_map.mp hrow
    exact takes_document (account_fits hacc (h.owners r hr)) c hc
  · rw [hjob c hc] at hrow
    obtain ⟨r,hr,rfl⟩ := List.mem_map.mp hrow
    obtain ⟨d,hd,-,hown⟩ := h.document r hr
    exact takes_job (hown ▸ account_fits hacc (h.owners d hd)) (h.attempts r hr) (h.maxAttempts r hr) c hc
  · rw [hartifact c hc] at hrow
    obtain ⟨r,hr,rfl⟩ := List.mem_map.mp hrow
    exact takes_artifact r c hc

theorem uniques_orderly (hacc : Admits metadata (contents accounts .empty)) (h : Orderly accounts db) :
    ∀ u ∈ metadata.uniques, u.Holds (contents accounts db) := by
  intro u hu
  simp only [metadata, List.mem_cons, List.not_mem_nil, or_false] at hu
  rcases hu with rfl | rfl | rfl | rfl | rfl | rfl | rfl
  · exact hacc.uniques _ (by decide)
  · exact hacc.uniques _ (by decide)
  · refine holds_map (f := documentRecord) rfl db.documents.nodup (fun a _ b _ hc => ?_)
    simpa [unique, Unique.Clash, documentRecord] using hc.2.2.2
  · refine holds_map (f := documentRecord) rfl db.documents.nodup (fun a ha b hb hc => ?_)
    have hkey : a.objectKey = b.objectKey := by
      simpa [unique, Unique.Clash, documentRecord] using hc.2.2.2
    rw [h.keys a ha, h.keys b hb] at hkey
    exact (rawKey_injective hkey).2
  · refine holds_map (f := jobRecord) rfl db.jobs.nodup (fun a _ b _ hc => ?_)
    simpa [unique, Unique.Clash, jobRecord] using hc.2.2.2
  · refine holds_map (f := artifactRecord) rfl h.stamps (fun a _ b _ hc => ?_)
    simpa [unique, Unique.Clash, artifactRecord] using hc.2.2.2
  · refine holds_map (f := artifactRecord) rfl db.artifacts.nodup (fun a _ b _ hc => ?_)
    have hdoc : a.documentId = b.documentId := by
      have hkey := hc.2.2.2
      simp only [unique, artifactRecord, List.map_cons, List.cons.injEq, Value.uuid.injEq] at hkey
      exact hkey.1
    rw [slot_eq, slot_eq, hdoc]

theorem foreignKeys_orderly (h : Orderly accounts db) :
    ∀ k ∈ metadata.foreignKeys, k.Holds (contents accounts db) := by
  intro k hk
  simp only [metadata, List.mem_cons, List.not_mem_nil, or_false] at hk
  rcases hk with rfl | rfl | rfl | rfl | rfl <;> intro row hrow <;>
    obtain ⟨r,hr,rfl⟩ := List.mem_map.mp hrow <;> refine Or.inr ?_
  · obtain ⟨x,hx,hid⟩ := h.owners r hr
    exact ⟨x,hx,hid⟩
  · obtain ⟨d,hd,-,hown⟩ := h.document r hr
    obtain ⟨x,hx,hid⟩ := h.owners d hd
    exact ⟨x,hx,hid.trans (congrArg Value.integer hown)⟩
  · obtain ⟨d,hd,hid,-⟩ := h.document r hr
    exact ⟨_,List.mem_map_of_mem hd,congrArg Value.uuid hid⟩
  · obtain ⟨j,hj,hid,-⟩ := h.job r hr
    exact ⟨_,List.mem_map_of_mem hj,congrArg Value.uuid hid⟩
  · obtain ⟨j,hj,-,hdoc⟩ := h.job r hr
    obtain ⟨d,hd,hid,-⟩ := h.document j hj
    exact ⟨_,List.mem_map_of_mem hd,congrArg Value.uuid (hid.trans hdoc)⟩

theorem oneActive_orderly (h : Orderly accounts db) :
    (oneActiveJob [.queued,.started]).Holds (contents accounts db) := by
  have hactive : ∀ r : JobRow, (oneActiveJob [.queued,.started]).covers (jobRecord r) = true →
      r.status.active = true := by
    intro r hr
    cases hst : r.status <;>
      simp [oneActiveJob, Unique.covers, jobRecord, statusLabel, hst, JobStatus.active] at hr ⊢
  refine holds_map (f := jobRecord) rfl db.jobs.nodup (fun a ha b hb hc => ?_)
  obtain ⟨hca,hcb,-,hkey⟩ := hc
  simp only [oneActiveJob, List.map_cons, List.map_nil, jobRecord, List.cons.injEq,
    Value.integer.injEq, Value.uuid.injEq, and_true] at hkey
  exact h.oneActive a ha b hb (hactive a hca) (hactive b hcb) hkey.1 hkey.2

/-- In every run whose requests are authentic, started on a database that holds
accounts only, the tables satisfy every constraint of the migrated schema,
which is the one the mapped classes declare together with the partial index. -/
theorem tables_admitted {t : List (State × System.Label)} (ht : Trail (step threshold) init t s)
    (hacc : Admits (schemaAt head) (contents accounts .empty))
    (ha : Allowed (Authentic accounts) t) :
    Admits (schemaAt head) (contents accounts s.world.db) ∧ Declared (schemaAt head) metadata := by
  have h := orderly_of_trail ht ha
  have hm := ((admits_iff _).mp hacc).1
  refine ⟨(admits_iff _).mpr ⟨⟨fun t ht => ?_,columns_orderly hm h,uniques_orderly hm h,
    foreignKeys_orderly h⟩,oneActive_orderly h⟩,catalogue_metadata⟩
  rw [(hasTable_metadata t).1] at ht
  cases ht

end Admission

def seventh : Record
  | .id => .integer 7
  | .apiKeyHash => .text "hash"
  | _ => .null

def authentic (a : AccountId) : System.Label → Bool
  | .arrive _ b _ => b = a
  | .serve _ o _ => 1 ≤ o.maxAttempts && o.maxAttempts < 2^31
  | _ => true

theorem authentic_of {l : System.Label} (s : State) (h : authentic 7 l = true) :
    Authentic [seventh] s l := by
  cases l with
  | arrive r a route =>
    obtain rfl : a = 7 := by simpa [authentic] using h
    exact ⟨seventh,List.mem_singleton_self _,rfl⟩
  | serve r o out => simpa [authentic, Authentic] using h
  | _ => trivial

theorem tables_admitted_sample :
    (Admits (schemaAt head) (contents [seventh] (after completeRun).world.db) ∧
      Declared (schemaAt head) metadata) ∧
      (contents [seventh] (after completeRun).world.db .artifacts).length = 1 := by
  have hrun : ((run (step 100) init completeRun).isSome &&
      (contents [seventh] (after completeRun).world.db .artifacts).length == 1) = true := by
    decide +kernel
  simp only [Bool.and_eq_true, beq_iff_eq] at hrun
  have hok : ∀ l ∈ completeRun, authentic 7 l = true := by decide +kernel
  exact ⟨tables_admitted (trail_path completeRun hrun.1) (by decide +kernel)
    (fun x hx => authentic_of x.1 (hok _ (mem_path hx))),hrun.2⟩

end DocPipeline.Catalogued
