import DocPipeline.Library.Schemas

/-!
# The Alembic chain

Each `upgrade` is its list of statements, in the order of the source. The
catalogue at a revision is what the upgrades up to it make of an empty
database, so the constraints in force are nowhere written down a second time.
A chain of upgrades is run on arbitrary rows that the starting catalogue
admits.
-/

set_option autoImplicit false

namespace DocPipeline.Migrations
open RelationalSchema

inductive TableName where
  | accounts
  | documents
  | jobs
  | artifacts
  deriving DecidableEq

instance : Fintype TableName where
  elems := {.accounts,.documents,.jobs,.artifacts}
  complete t := by cases t <;> decide

inductive ColumnName where
  | id
  | apiKeyHash
  | objectKey
  | accountId
  | createdAt
  | fileName
  | documentId
  | status
  | artifactTypes
  | attempts
  | maxAttempts
  | errorMessage
  | queuedAt
  | startedAt
  | completedAt
  | lastAttemptAt
  | failedAt
  | jobId
  | artifactType
  deriving DecidableEq

inductive ObjectName where
  | jobStatusEnum
  | jobStatusEnumNew
  | artifactTypeEnum
  | accountsPkey
  | accountsApiKeyHashKey
  | documentsPkey
  | documentsObjectKeyKey
  | documentsAccountIdFkey
  | jobsPkey
  | jobsAccountIdFkey
  | jobsDocumentIdFkey
  | artifactsPkey
  | artifactsObjectKeyKey
  | artifactsDocumentIdFkey
  | artifactsJobIdFkey
  | oneActiveJobPerDocument
  | artifactsDocumentIdArtifactTypeKey
  deriving DecidableEq

inductive Label where
  | created
  | queued
  | started
  | completed
  | failed
  | markdown
  deriving DecidableEq

abbrev Catalogue := Schema TableName ColumnName ObjectName Label
abbrev Contents := Rows TableName ColumnName Label
abbrev Record := Row ColumnName Label
abbrev Sql := Statement TableName ColumnName ObjectName Label

/-- What the volatile functions of a run return: `NOW()`, and
`gen_random_uuid()` for a row of a column. -/
structure Volatile where
  now : ℕ
  genRandomUuid : TableName → ColumnName → Record → BitVec 128

section Upgrades

def column (t : TableName) (name : ColumnName) (type : ColumnType ObjectName)
    (nullable : Bool) : Column TableName ColumnName ObjectName Label := ⟨t,name,type,nullable,none⟩

def serialId (t : TableName) : Column TableName ColumnName ObjectName Label :=
  ⟨t,.id,.integer,false,some .nextval⟩

def unique (name : ObjectName) (t : TableName) (columns : List ColumnName) :
    Unique TableName ColumnName ObjectName Label := ⟨name,t,columns,none⟩

def foreignKey (name : ObjectName) (t : TableName) (column : ColumnName) (refTable : TableName) :
    ForeignKey TableName ColumnName ObjectName := ⟨name,t,column,refTable,.id⟩

/-- `CREATE UNIQUE INDEX one_active_job_per_document ... WHERE status IN labels`. -/
def oneActiveJob (labels : List Label) : Unique TableName ColumnName ObjectName Label :=
  ⟨.oneActiveJobPerDocument,.jobs,[.accountId,.documentId],some (.status,labels)⟩

/-- 2504b99774c5. The enum types are created with the first table that uses them. -/
def initial : List Sql :=
  [.createTable .accounts
      [serialId .accounts,column .accounts .apiKeyHash .string true]
      [unique .accountsPkey .accounts [.id],unique .accountsApiKeyHashKey .accounts [.apiKeyHash]]
      [],
    .createTable .documents
      [serialId .documents,column .documents .objectKey .string false,
        column .documents .accountId .integer false,column .documents .createdAt .timestamp false]
      [unique .documentsPkey .documents [.id],unique .documentsObjectKeyKey .documents [.objectKey]]
      [foreignKey .documentsAccountIdFkey .documents .accountId .accounts],
    .createType .jobStatusEnum [.created,.queued,.started,.completed,.failed],
    .createType .artifactTypeEnum [.markdown],
    .createTable .jobs
      [serialId .jobs,column .jobs .accountId .integer false,column .jobs .documentId .integer false,
        ⟨.jobs,.status,.enum .jobStatusEnum,false,some (.value (.label .created))⟩,
        column .jobs .artifactTypes (.enumArray .artifactTypeEnum) false,
        ⟨.jobs,.attempts,.integer,false,some (.value (.integer 0))⟩,
        ⟨.jobs,.maxAttempts,.integer,false,some (.value (.integer 3))⟩,
        column .jobs .errorMessage .string true,column .jobs .createdAt .timestamp false,
        column .jobs .queuedAt .timestamp true,column .jobs .startedAt .timestamp true,
        column .jobs .completedAt .timestamp true,column .jobs .lastAttemptAt .timestamp true]
      [unique .jobsPkey .jobs [.id]]
      [foreignKey .jobsAccountIdFkey .jobs .accountId .accounts,
        foreignKey .jobsDocumentIdFkey .jobs .documentId .documents],
    .createTable .artifacts
      [serialId .artifacts,column .artifacts .jobId .integer false,
        column .artifacts .documentId .integer false,
        column .artifacts .artifactType (.enum .artifactTypeEnum) false,
        column .artifacts .objectKey .string false,column .artifacts .createdAt .timestamp false]
      [unique .artifactsPkey .artifacts [.id],unique .artifactsObjectKeyKey .artifacts [.objectKey]]
      [foreignKey .artifactsDocumentIdFkey .artifacts .documentId .documents,
        foreignKey .artifactsJobIdFkey .artifacts .jobId .jobs]]

/-- 2cf5e2bafa8f. -/
def addFailedAtToJobs : List Sql := [.addColumn .jobs .failedAt .timestamp true none]

/-- c3890ddba5ac. The server default is the text of two quotes. -/
def addFileNameToDocuments : List Sql :=
  [.addColumn .documents .fileName .string false (some (.text "''"))]

/-- 3c12203559ad. -/
def addOneActiveJobPerDocumentIndex : List Sql :=
  [.createUnique (oneActiveJob [.created,.queued,.started])]

/-- 29e93f1a2527. -/
def removeCreatedFromJobStatusEnum (v : Volatile) : List Sql :=
  [.update .jobs [(.status,.label .queued),(.queuedAt,.timestamp v.now)]
      (fun row => row .status = .label .created),
    .drop .oneActiveJobPerDocument false,
    .dropDefault .jobs .status,
    .createType .jobStatusEnumNew [.queued,.started,.completed,.failed],
    .alterType .jobs .status (.enum .jobStatusEnumNew) (fun row => row .status),
    .dropType .jobStatusEnum,
    .renameType .jobStatusEnumNew .jobStatusEnum,
    .createUnique (oneActiveJob [.queued,.started]),
    .setDefault .jobs .status (.label .queued)]

def uuidTables : List TableName := [.documents,.jobs,.artifacts]

def toUuid (v : Volatile) (t : TableName) (name : ColumnName) : Sql :=
  .alterType t name .uuid (fun row => .uuid (v.genRandomUuid t name row))

/-- a1b2c3d4e5f6. -/
def uuidPrimaryKeys (v : Volatile) : List Sql :=
  [.drop .oneActiveJobPerDocument true,
    .drop .artifactsJobIdFkey true,
    .drop .artifactsDocumentIdFkey true,
    .drop .jobsDocumentIdFkey true,
    .truncate [.artifacts,.jobs,.documents] true] ++
  uuidTables.flatMap (fun t => [.dropDefault t .id,toUuid v t .id,.dropSequence t]) ++
  [toUuid v .jobs .documentId,
    toUuid v .artifacts .documentId,
    toUuid v .artifacts .jobId,
    .addForeignKey (foreignKey .jobsDocumentIdFkey .jobs .documentId .documents),
    .addForeignKey (foreignKey .artifactsDocumentIdFkey .artifacts .documentId .documents),
    .addForeignKey (foreignKey .artifactsJobIdFkey .artifacts .jobId .jobs),
    .createUnique (oneActiveJob [.queued,.started])]

/-- b2c3d4e5f6a7. -/
def dropDocumentsFileName : List Sql := [.dropColumn .documents .fileName]

/-- c3d4e5f6a7b8. -/
def artifactUniqueDocumentType : List Sql :=
  [.truncate [.artifacts] false,
    .drop .artifactsObjectKeyKey true,
    .createUnique
      (unique .artifactsDocumentIdArtifactTypeKey .artifacts [.documentId,.artifactType])]

end Upgrades

section Chain

inductive Revision where
  | r2504b99774c5
  | r2cf5e2bafa8f
  | rc3890ddba5ac
  | r3c12203559ad
  | r29e93f1a2527
  | ra1b2c3d4e5f6
  | rb2c3d4e5f6a7
  | rc3d4e5f6a7b8
  deriving DecidableEq

def upgrade (v : Volatile) : Revision → List Sql
  | .r2504b99774c5 => initial
  | .r2cf5e2bafa8f => addFailedAtToJobs
  | .rc3890ddba5ac => addFileNameToDocuments
  | .r3c12203559ad => addOneActiveJobPerDocumentIndex
  | .r29e93f1a2527 => removeCreatedFromJobStatusEnum v
  | .ra1b2c3d4e5f6 => uuidPrimaryKeys v
  | .rb2c3d4e5f6a7 => dropDocumentsFileName
  | .rc3d4e5f6a7b8 => artifactUniqueDocumentType

def revisions : List Revision :=
  [.r2504b99774c5,.r2cf5e2bafa8f,.rc3890ddba5ac,.r3c12203559ad,.r29e93f1a2527,.ra1b2c3d4e5f6,
    .rb2c3d4e5f6a7,.rc3d4e5f6a7b8]

def head : Revision := .rc3d4e5f6a7b8

def upTo (r : Revision) : List Revision := revisions.takeWhile (· ≠ r)++[r]

def remaining (r : Revision) : List Revision := (revisions.dropWhile (· ≠ r)).tail

def still : Volatile := ⟨0,fun _ _ _ => 0⟩

def schemaAt (r : Revision) : Catalogue :=
  (alterAll ((upTo r).flatMap (upgrade still)) Schema.empty).getD Schema.empty

/-- Run the remaining upgrades on the contents of a database at `r`. -/
def upgradeToHead (v : Volatile) (r : Revision) (d : Contents) :
    Except Failure (Catalogue × Contents) :=
  run ((remaining r).flatMap (upgrade v)) (schemaAt r,d)

theorem alterAll_upgrade (v : Volatile) (r : Revision) (s : Catalogue) :
    alterAll (upgrade v r) s = alterAll (upgrade still r) s := by
  cases r <;> rfl

theorem mem_revisions (r : Revision) : r ∈ revisions := by
  cases r <;> decide

theorem alterAll_revisions : ∀ r ∈ revisions, ∀ r' ∈ (remaining r).head?,
    alterAll (upgrade still r') (schemaAt r) = some (schemaAt r') := by
  decide +kernel

end Chain

section Steps

variable {v : Volatile} {d : Contents}

def Succeeds (v : Volatile) (r : Revision) (d : Contents) : Prop :=
  ∃ d', upgradeToHead v r d = .ok (schemaAt head,d')

def Follows (r r' : Revision) : Prop := remaining r = r'::remaining r'

theorem Follows.eq {r r' : Revision} (h : Follows r r') : remaining r = r'::remaining r' := h

theorem Follows.alterAll {r r' : Revision} (h : Follows r r') :
    alterAll (upgrade v r') (schemaAt r) = some (schemaAt r') := by
  rw [alterAll_upgrade]
  exact alterAll_revisions r (mem_revisions r) r' (by rw [h]; rfl)

theorem Follows.remaining {r r' : Revision} (h : Follows r r')
    (hr : RelationalSchema.alterAll ((Migrations.remaining r').flatMap (upgrade v)) (schemaAt r') =
      some (schemaAt head)) :
    RelationalSchema.alterAll ((Migrations.remaining r).flatMap (upgrade v)) (schemaAt r) =
      some (schemaAt head) := by
  rw [h.eq, List.flatMap_cons, alterAll_append, h.alterAll]
  exact hr

theorem succeeds_head : Succeeds v head d := ⟨d,rfl⟩

theorem Follows.succeeds_iff {r r' : Revision} (h : Follows r r') {d' : Contents}
    (hrun : run (upgrade v r') (schemaAt r,d) = .ok (schemaAt r',d')) :
    Succeeds v r d ↔ Succeeds v r' d' := by
  simp only [Succeeds, upgradeToHead, h.eq, List.flatMap_cons, run_append, hrun]
  rfl

theorem Follows.not_succeeds {r r' : Revision} (h : Follows r r') {e : Failure}
    (hrun : run (upgrade v r') (schemaAt r,d) = .error e) : ¬ Succeeds v r d := by
  rintro ⟨d',hd⟩
  simp only [upgradeToHead, h.eq, List.flatMap_cons, run_append, hrun] at hd
  cases hd

theorem revisions_follow : ∀ r ∈ revisions, ∀ r' ∈ (remaining r).head?,
    remaining r = r'::remaining r' := by
  decide

theorem follows {r r' : Revision} (h : (remaining r).head? = some r') : Follows r r' :=
  revisions_follow r (mem_revisions r) r' h

theorem eq_head : ∀ r ∈ revisions, remaining r = [] → r = head := by
  decide

/-- The catalogue allows all remaining upgrades. -/
theorem alterAll_remaining (v : Volatile) (r : Revision) :
    alterAll ((remaining r).flatMap (upgrade v)) (schemaAt r) = some (schemaAt head) := by
  induction hn : (remaining r).length generalizing r with
  | zero =>
    obtain rfl := eq_head r (mem_revisions r) (List.eq_nil_of_length_eq_zero hn)
    rfl
  | succ n ih =>
    cases hr : remaining r with
    | nil =>
      rw [hr] at hn
      cases hn
    | cons r' rs =>
      have hf := follows (r := r) (congrArg List.head? hr)
      have hlen : (remaining r').length = n := by
        rw [hf.eq] at hn
        exact Nat.succ.inj hn
      rw [← hr]
      exact hf.remaining (ih r' hlen)

/-- The artifacts are gone before they have to be unique. -/
theorem succeeds_b2c3d4e5f6a7 : Succeeds v .rb2c3d4e5f6a7 d := by
  obtain ⟨d',hrun⟩ := run_truncate (by decide) ((follows (r := .rb2c3d4e5f6a7) rfl).alterAll (v := v))
  exact ((follows (r := .rb2c3d4e5f6a7) rfl).succeeds_iff hrun).mpr succeeds_head

theorem succeeds_a1b2c3d4e5f6 : Succeeds v .ra1b2c3d4e5f6 d :=
  ((follows (r := .ra1b2c3d4e5f6) rfl).succeeds_iff (run_of_neutral rfl (follows rfl).alterAll)).mpr
    succeeds_b2c3d4e5f6a7

/-- No row that would have to be converted is left. -/
theorem succeeds_29e93f1a2527 : Succeeds v .r29e93f1a2527 d := by
  have hsplit : upgrade v .ra1b2c3d4e5f6 = (uuidPrimaryKeys v).take 4 ++
      .truncate [.artifacts,.jobs,.documents] true::(uuidPrimaryKeys v).drop 5 := rfl
  have ha := (follows (r := .r29e93f1a2527) rfl).alterAll (v := v)
  rw [hsplit, alterAll_append, Option.bind_eq_some_iff] at ha
  obtain ⟨s,ha,hb⟩ := ha
  obtain ⟨d',hrun⟩ := run_truncate (d := d) rfl hb
  have hall : run (upgrade v .ra1b2c3d4e5f6) (schemaAt .r29e93f1a2527,d) =
      .ok (schemaAt .ra1b2c3d4e5f6,d') := by
    rw [hsplit, run_neutral_append rfl ha, hrun]
  exact ((follows (r := .r29e93f1a2527) rfl).succeeds_iff hall).mpr succeeds_a1b2c3d4e5f6

end Steps

section RemoveCreated

variable {v : Volatile} {d : Contents}

def statusColumn : Column TableName ColumnName ObjectName Label :=
  ⟨.jobs,.status,.enum .jobStatusEnum,false,some (.value (.label .created))⟩

def backfill (v : Volatile) (row : Record) : Record :=
  if decide (row .status = .label .created) then
    assigned [(.status,.label .queued),(.queuedAt,.timestamp v.now)] row
  else row

def Surviving (x : Value Label) : Prop := ∃ l ∈ [Label.queued,.started,.completed,.failed], x = .label l

theorem backfill_of_not_mem (row : Record) (x : ColumnName) (h : x ∉ [ColumnName.status,.queuedAt]) :
    backfill v row x = row x := by
  unfold backfill
  split
  · exact assigned_of_not_mem _ row x h
  · rfl

theorem backfill_status (row : Record) : backfill v row .status =
    if row .status = .label .created then .label .queued else row .status := by
  by_cases h : row .status = .label .created <;> simp [backfill, assigned, h]

theorem backfill_queuedAt (row : Record) : backfill v row .queuedAt =
    if row .status = .label .created then .timestamp v.now else row .queuedAt := by
  by_cases h : row .status = .label .created <;> simp [backfill, assigned, h]

theorem mem_backfilled {row : Record} : row ∈ mapRows .jobs (backfill v) d .jobs ↔
    ∃ x ∈ d .jobs, backfill v x = row := by
  rw [mapRows_self, List.mem_map]

theorem catalogue_before : (schemaAt .r3c12203559ad).types = [(.jobStatusEnum,[.created,.queued,
      .started,.completed,.failed]),(.artifactTypeEnum,[.markdown])] ∧
    (schemaAt .r3c12203559ad).columnsAt .jobs [.status,.queuedAt] =
      [statusColumn,column .jobs .queuedAt .timestamp true] ∧
    (schemaAt .r3c12203559ad).uniquesAt .jobs [.status,.queuedAt] =
      [oneActiveJob [.created,.queued,.started]] ∧
    (schemaAt .r3c12203559ad).foreignKeysAt .jobs [.status,.queuedAt] = [] ∧
    (schemaAt .r3c12203559ad).hasColumn .jobs .status = true ∧
    (schemaAt .r3c12203559ad).hasColumn .jobs .queuedAt = true := by
  decide +kernel

theorem mem_columns_before {c : Column TableName ColumnName ObjectName Label}
    (h : c ∈ [statusColumn,column .jobs .queuedAt .timestamp true]) :
    c ∈ (schemaAt .r3c12203559ad).columns := by
  rw [← catalogue_before.2.1] at h
  exact List.mem_of_mem_filter h

/-- Every job has one of the five statuses. -/
theorem status_of_admits (h : Admits (schemaAt .r3c12203559ad) d) {row : Record}
    (hrow : row ∈ d .jobs) : row .status = .label .created ∨ Surviving (row .status) := by
  have hf := h.columns statusColumn (mem_columns_before List.mem_cons_self) row hrow
  simp only [catalogue_before.1, statusColumn, Bool.false_eq_true, and_false, false_or] at hf
  cases hs : row .status with
  | label l =>
    rw [hs] at hf
    cases l with
    | created => exact Or.inl rfl
    | queued | started | completed | failed => exact Or.inr ⟨_,by decide,rfl⟩
    | markdown => exact absurd hf (by decide)
  | _ => rw [hs] at hf; cases hf

theorem surviving_backfill (h : Admits (schemaAt .r3c12203559ad) d) {row : Record}
    (hrow : row ∈ mapRows .jobs (backfill v) d .jobs) : Surviving (row .status) := by
  obtain ⟨x,hx,rfl⟩ := mem_backfilled.mp hrow
  rw [backfill_status]
  split
  · exact ⟨.queued,by decide,rfl⟩
  · rename_i hne
    exact (status_of_admits h hx).resolve_left hne

theorem covers_oneActiveJob (labels : List Label) (row : Record) :
    (oneActiveJob labels).covers row = true ↔ ∃ l ∈ labels, row .status = .label l := by
  simp [Unique.covers, oneActiveJob]

theorem clash_subset {labels labels' : List Label} (h : labels ⊆ labels') {a b : Record}
    (hc : (oneActiveJob labels).Clash a b) : (oneActiveJob labels').Clash a b := by
  obtain ⟨ha,hb,hkey⟩ := hc
  rw [covers_oneActiveJob] at ha hb
  refine ⟨(covers_oneActiveJob _ _).mpr ?_,(covers_oneActiveJob _ _).mpr ?_,hkey⟩
  · exact ha.imp (fun l hl => ⟨h hl.1,hl.2⟩)
  · exact hb.imp (fun l hl => ⟨h hl.1,hl.2⟩)

theorem covers_backfill {row : Record}
    (h : (oneActiveJob [.created,.queued,.started]).covers (backfill v row) = true) :
    (oneActiveJob [.created,.queued,.started]).covers row = true := by
  rw [covers_oneActiveJob, backfill_status] at h
  rw [covers_oneActiveJob]
  split at h
  · rename_i hs
    exact ⟨.created,by decide,hs⟩
  · exact h

/-- The backfilled rows are active before and after, with the same key. -/
theorem clash_backfill {a b : Record}
    (h : (oneActiveJob [.created,.queued,.started]).Clash (backfill v a) (backfill v b)) :
    (oneActiveJob [.created,.queued,.started]).Clash a b := by
  obtain ⟨ha,hb,hkey⟩ := h
  have hk : ∀ row, (oneActiveJob [.created,.queued,.started]).columns.map (backfill v row) =
      (oneActiveJob [.created,.queued,.started]).columns.map row := by
    intro row
    exact List.map_congr_left (fun x hx => backfill_of_not_mem row x (by revert x; decide))
  rw [hk, hk] at hkey
  exact ⟨covers_backfill ha,covers_backfill hb,hkey⟩

theorem oneActiveJob_of_admits (h : Admits (schemaAt .r3c12203559ad) d) :
    (oneActiveJob [.created,.queued,.started]).Holds (mapRows .jobs (backfill v) d) := by
  have hu : oneActiveJob [.created,.queued,.started] ∈ (schemaAt .r3c12203559ad).uniques := by
    have := List.mem_singleton_self (oneActiveJob [.created,.queued,.started])
    rw [← catalogue_before.2.2.1] at this
    exact List.mem_of_mem_filter this
  exact (h.uniques _ hu).mapRows rfl rfl (fun _ _ => clash_backfill)

theorem rechecked_backfill (h : Admits (schemaAt .r3c12203559ad) d) :
    Rechecked (schemaAt .r3c12203559ad) .jobs [.status,.queuedAt] (mapRows .jobs (backfill v) d) := by
  obtain ⟨ht,hc,hu,hk,-,-⟩ := catalogue_before
  refine ⟨?_,?_,?_⟩
  · rw [hc, List.forall_mem_cons, List.forall_mem_singleton]
    constructor
    · intro row hrow
      obtain ⟨x,hx,rfl⟩ := mem_backfilled.mp hrow
      have hold := h.columns statusColumn (mem_columns_before List.mem_cons_self) x hx
      simp only [statusColumn, backfill_status] at hold ⊢
      split
      · rw [ht]
        exact Or.inr (by decide)
      · exact hold
    · intro row hrow
      obtain ⟨x,hx,rfl⟩ := mem_backfilled.mp hrow
      have hold := h.columns (column .jobs .queuedAt .timestamp true) (mem_columns_before
        (List.mem_cons_of_mem _ (List.mem_singleton_self _))) x hx
      simp only [column, backfill_queuedAt] at hold ⊢
      split
      · exact Or.inr rfl
      · exact hold
  · rw [hu, List.forall_mem_singleton]
    exact oneActiveJob_of_admits h
  · rw [hk]
    exact fun _ hm => absurd hm List.not_mem_nil

def fill (v : Volatile) : Sql :=
  .update .jobs [(.status,.label .queued),(.queuedAt,.timestamp v.now)]
    (fun row => row .status = .label .created)

theorem alter_fill : (fill v).alter (schemaAt .r3c12203559ad) = some (schemaAt .r3c12203559ad) := by
  obtain ⟨-,-,-,-,hstatus,hqueued⟩ := catalogue_before
  simp [fill, Statement.alter, hstatus, hqueued]

theorem rewrite_fill (s : Catalogue) : (fill v).rewrite s d = mapRows .jobs (backfill v) d := rfl

def untyped : Catalogue :=
  (alterAll [.drop .oneActiveJobPerDocument false,.dropDefault .jobs .status,
    .createType .jobStatusEnumNew [.queued,.started,.completed,.failed]]
    (schemaAt .r3c12203559ad)).getD .empty

def narrow : Sql := .alterType .jobs .status (.enum .jobStatusEnumNew) (fun row => row .status)

def retyped : Catalogue := (narrow.alter untyped).getD .empty

def renamedType : Catalogue :=
  (alterAll [.dropType .jobStatusEnum,.renameType .jobStatusEnumNew .jobStatusEnum] retyped).getD
    .empty

def reindexed : Catalogue :=
  ((Statement.createUnique (oneActiveJob [.queued,.started])).alter renamedType).getD .empty

theorem rewrite_narrow (s : Catalogue) : narrow.rewrite s d = d := by
  funext t
  by_cases ht : t = .jobs
  · subst ht
    simp [narrow, Statement.rewrite, mapRows_self]
  · exact mapRows_of_ne ht

theorem catalogue_between : alterAll [.drop .oneActiveJobPerDocument false,
      .dropDefault .jobs .status,
      .createType .jobStatusEnumNew [.queued,.started,.completed,.failed]]
      (schemaAt .r3c12203559ad) = some untyped ∧
    narrow.alter untyped = some retyped ∧
    retyped.columnsAt .jobs [.status] = [⟨.jobs,.status,.enum .jobStatusEnumNew,false,none⟩] ∧
    retyped.uniquesAt .jobs [.status] = [] ∧ retyped.foreignKeysAt .jobs [.status] = [] ∧
    (∀ l ∈ [Label.queued,.started,.completed,.failed],
      fits retyped.types (.enum .jobStatusEnumNew) (.label l) = true) ∧
    alterAll [.dropType .jobStatusEnum,.renameType .jobStatusEnumNew .jobStatusEnum] retyped =
      some renamedType ∧
    (Statement.createUnique (oneActiveJob [.queued,.started])).alter renamedType = some reindexed ∧
    (Statement.setDefault .jobs .status (.label .queued)).alter reindexed =
      some (schemaAt .r29e93f1a2527) := by
  decide +kernel

theorem accepts_narrow (h : ∀ row ∈ d .jobs, Surviving (row .status)) : narrow.Accepts retyped d := by
  obtain ⟨-,-,hc,hu,hk,hfits,-⟩ := catalogue_between
  refine ⟨?_,by rw [hu]; exact fun _ hm => absurd hm List.not_mem_nil,
    by rw [hk]; exact fun _ hm => absurd hm List.not_mem_nil⟩
  rw [hc, List.forall_mem_singleton]
  intro row hrow
  obtain ⟨l,hl,hs⟩ := h row hrow
  simp only [hs]
  exact Or.inr (hfits l hl)

/-- Backfilling first makes the narrower enum and the narrower index fit. -/
theorem run_removeCreated (h : Admits (schemaAt .r3c12203559ad) d) :
    run (upgrade v .r29e93f1a2527) (schemaAt .r3c12203559ad,d) =
      .ok (schemaAt .r29e93f1a2527,mapRows .jobs (backfill v) d) := by
  obtain ⟨hdrop,hnarrow,-,-,-,-,hrename,hcreate,hdefault⟩ := catalogue_between
  have hindex : (oneActiveJob [.queued,.started]).Holds (mapRows .jobs (backfill v) d) :=
    (oneActiveJob_of_admits h).imp (fun hn hc => hn (clash_subset (by decide) hc))
  have hfill : (fill v).Accepts (schemaAt .r3c12203559ad) ((fill v).rewrite (schemaAt .r3c12203559ad) d) :=
    rechecked_backfill h
  have hnarrowed : narrow.Accepts retyped (narrow.rewrite untyped (mapRows .jobs (backfill v) d)) := by
    rw [rewrite_narrow]
    exact accepts_narrow (fun row => surviving_backfill h)
  have hsplit : upgrade v .r29e93f1a2527 = fill v::
      ([.drop .oneActiveJobPerDocument false,.dropDefault .jobs .status,
        .createType .jobStatusEnumNew [.queued,.started,.completed,.failed]] ++ narrow::
      ([.dropType .jobStatusEnum,.renameType .jobStatusEnumNew .jobStatusEnum] ++
        .createUnique (oneActiveJob [.queued,.started])::
        [.setDefault .jobs .status (.label .queued)])) := rfl
  rw [hsplit, run_cons alter_fill hfill, rewrite_fill, run_neutral_append rfl hdrop,
    run_cons hnarrow hnarrowed, rewrite_narrow, run_neutral_append rfl hrename,
    run_createUnique hcreate hindex, run_cons hdefault trivial]
  rfl

end RemoveCreated

section Succeeds

variable {v : Volatile} {d : Contents}

theorem succeeds_3c12203559ad (h : Admits (schemaAt .r3c12203559ad) d) : Succeeds v .r3c12203559ad d :=
  (Follows.succeeds_iff (follows (r := .r3c12203559ad) rfl) (run_removeCreated h)).mpr succeeds_29e93f1a2527

/-- The index is built on whatever jobs there are. -/
theorem succeeds_c3890ddba5ac (h : Admits (schemaAt .rc3890ddba5ac) d) : Succeeds v .rc3890ddba5ac d ↔
    (oneActiveJob [.created,.queued,.started]).Holds d := by
  have ha := Follows.alterAll (v := v) (follows (r := .rc3890ddba5ac) rfl)
  rw [upgrade, addOneActiveJobPerDocumentIndex, alterAll_singleton] at ha
  have hrun : (oneActiveJob [.created,.queued,.started]).Holds d →
      run (upgrade v .r3c12203559ad) (schemaAt .rc3890ddba5ac,d) =
        .ok (schemaAt .r3c12203559ad,d) := by
    intro hu
    rw [upgrade, addOneActiveJobPerDocumentIndex, run_createUnique ha hu]
    rfl
  constructor
  · intro hs
    by_contra hn
    refine Follows.not_succeeds (e := .violation) (follows (r := .rc3890ddba5ac) rfl) ?_ hs
    rw [upgrade, addOneActiveJobPerDocumentIndex, run, exec_createUnique ha, if_neg hn]
    rfl
  · intro hu
    rw [Follows.succeeds_iff (follows (r := .rc3890ddba5ac) rfl) (hrun hu)]
    exact succeeds_3c12203559ad (admits_run (x := (schemaAt .rc3890ddba5ac,d)) h (hrun hu))

/-- The catalogues around the two steps that only add a column. -/
theorem catalogue_added : ((schemaAt .rc3890ddba5ac).columnsAt .documents [.fileName] =
      [⟨.documents,.fileName,.string,false,some (.value (.text "''"))⟩] ∧
    (schemaAt .rc3890ddba5ac).uniquesAt .documents [.fileName] = [] ∧
    (schemaAt .rc3890ddba5ac).foreignKeysAt .documents [.fileName] = []) ∧
    (schemaAt .r2cf5e2bafa8f).columnsAt .jobs [.failedAt] = [column .jobs .failedAt .timestamp true] ∧
    (schemaAt .r2cf5e2bafa8f).uniquesAt .jobs [.failedAt] = [] ∧
    (schemaAt .r2cf5e2bafa8f).foreignKeysAt .jobs [.failedAt] = [] := by
  decide +kernel

/-- Adding a column that an index does not read leaves the chain as it was for
the rows of that index. -/
theorem Follows.succeeds_addColumn {r r' : Revision} (hf : Follows r r') {t : TableName}
    {name : ColumnName} {type : ColumnType ObjectName} {nullable : Bool}
    {default : Option (Value Label)} {u : Unique TableName ColumnName ObjectName Label}
    (hup : upgrade v r' = [.addColumn t name type nullable default])
    (hacc : (Statement.addColumn t name type nullable default).Accepts (schemaAt r')
      ((Statement.addColumn t name type nullable default).rewrite (schemaAt r) d))
    (hr : u.reads t [name] = false)
    (hnext : ∀ d', Admits (schemaAt r') d' → (Succeeds v r' d' ↔ u.Holds d'))
    (h : Admits (schemaAt r) d) : Succeeds v r d ↔ u.Holds d := by
  have ha := Follows.alterAll (v := v) hf
  rw [hup, alterAll_singleton] at ha
  have hrun := run_singleton ha hacc
  rw [← hup] at hrun
  rw [Follows.succeeds_iff hf hrun, hnext _ (admits_run (x := (schemaAt r,d)) h hrun)]
  exact Unique.holds_mapRows _ (fun row x hx => Function.update_of_ne (by simpa using hx) _ _) hr

theorem succeeds_2cf5e2bafa8f (h : Admits (schemaAt .r2cf5e2bafa8f) d) : Succeeds v .r2cf5e2bafa8f d ↔
    (oneActiveJob [.created,.queued,.started]).Holds d := by
  obtain ⟨⟨hc,hu,hk⟩,-⟩ := catalogue_added
  refine Follows.succeeds_addColumn (follows (r := .r2cf5e2bafa8f) rfl) rfl ?_ (by decide) ?_ h
  · exact accepts_addColumn hc rfl rfl hu hk (Or.inr rfl)
  · exact fun d' h' => succeeds_c3890ddba5ac h'

theorem succeeds_2504b99774c5 (h : Admits (schemaAt .r2504b99774c5) d) : Succeeds v .r2504b99774c5 d ↔
    (oneActiveJob [.created,.queued,.started]).Holds d := by
  obtain ⟨-,hc,hu,hk⟩ := catalogue_added
  refine Follows.succeeds_addColumn (follows (r := .r2504b99774c5) rfl) rfl ?_ (by decide) ?_ h
  · exact accepts_addColumn hc rfl rfl hu hk (Or.inl ⟨rfl,rfl⟩)
  · exact fun d' h' => succeeds_2cf5e2bafa8f h'

end Succeeds

section Outcome

variable {v : Volatile} {d : Contents}

def unindexed : List Revision := [.r2504b99774c5,.r2cf5e2bafa8f,.rc3890ddba5ac]

def Active (row : Record) : Prop :=
  row .status = .label .created ∨ row .status = .label .queued ∨ row .status = .label .started

def Rival (a b : Record) : Prop :=
  Active a ∧ Active b ∧ a .accountId = b .accountId ∧ a .documentId = b .documentId

instance : DecidableRel Rival := fun _ _ =>
  inferInstanceAs (Decidable ((_ ∨ _ ∨ _) ∧ (_ ∨ _ ∨ _) ∧ _ ∧ _))

structure Migrated (d d' : Contents) : Prop where
  admitted : Admits (schemaAt head) d'
  oneActiveJob : (d' .jobs).Pairwise (fun a b => ¬ Rival a b)
  oneArtifact : (d' .artifacts).Pairwise (fun a b =>
    ¬ (a .documentId = b .documentId ∧ a .artifactType = b .artifactType))
  noCreated : ∀ row ∈ d' .jobs, row .status ≠ .label .created
  accounts : d' .accounts = d .accounts

theorem catalogue_required : ∀ r ∈ revisions,
    [ColumnName.accountId,.documentId].all ((schemaAt r).requires .jobs) = true ∧
      touchesAny .accounts ((remaining r).flatMap (upgrade still)) (schemaAt r) = false := by
  decide +kernel

theorem catalogue_head : Migrations.oneActiveJob [.queued,.started] ∈ (schemaAt head).uniques ∧
    unique .artifactsDocumentIdArtifactTypeKey .artifacts [.documentId,.artifactType] ∈
      (schemaAt head).uniques ∧
    [ColumnName.documentId,.artifactType].all ((schemaAt head).requires .artifacts) = true ∧
    (∃ c ∈ (schemaAt head).columns, c.table = .jobs ∧ c.name = .status ∧
      fits (schemaAt head).types c.type (.label .created) = false) := by
  decide +kernel

theorem accounts_untouched (r : Revision) (s : Catalogue) :
    touchesAny .accounts ((remaining r).flatMap (upgrade v)) s =
      touchesAny .accounts ((remaining r).flatMap (upgrade still)) s := by
  cases r <;> rfl

theorem holds_iff_rivals {r : Revision} (h : Admits (schemaAt r) d) :
    (oneActiveJob [.created,.queued,.started]).Holds d ↔
      (d .jobs).Pairwise (fun a b => ¬ Rival a b) := by
  rw [h.unique_iff _ (catalogue_required r (mem_revisions r)).1]
  simp only [covers_oneActiveJob]
  simp [Rival, Active, oneActiveJob]

theorem no_created (h : Admits (schemaAt head) d) : ∀ row ∈ d .jobs, row .status ≠ .label .created := by
  obtain ⟨-,-,-,c,hc,ht,hn,hf⟩ := catalogue_head
  intro row hrow hs
  rcases h.columns c hc row (ht ▸ hrow) with ⟨hnull,-⟩ | hfits
  · rw [hn, hs] at hnull
    cases hnull
  · rw [hn, hs, hf] at hfits
    cases hfits

theorem migrated_of_run {r : Revision} {d' : Contents} (h : Admits (schemaAt r) d)
    (hrun : upgradeToHead v r d = .ok (schemaAt head,d')) : Migrated d d' := by
  have ha : Admits (schemaAt head) d' := admits_run (x := (schemaAt r,d)) h hrun
  obtain ⟨hjob,hartifact,hrequired,-⟩ := catalogue_head
  refine ⟨ha,?_,?_,no_created ha,?_⟩
  · have hu := (ha.unique_iff _ (catalogue_required head (mem_revisions head)).1).mp
      (ha.uniques _ hjob)
    refine hu.imp_of_mem (fun hma hmb hn hr => hn ?_)
    simp only [covers_oneActiveJob]
    obtain ⟨hx,hy,hkey⟩ := hr
    have hx := hx.resolve_left (no_created ha _ hma)
    have hy := hy.resolve_left (no_created ha _ hmb)
    simpa [oneActiveJob, hkey] using ⟨hx,hy⟩
  · have hu := (ha.unique_iff _ hrequired).mp (ha.uniques _ hartifact)
    refine hu.imp (fun hn hr => hn ?_)
    simp [unique, Unique.covers, hr]
  · refine run_untouched hrun ?_
    rw [accounts_untouched]
    exact (catalogue_required r (mem_revisions r)).2

theorem succeeds_iff {r : Revision} (h : Admits (schemaAt r) d) : Succeeds v r d ↔
    (r ∈ unindexed → (d .jobs).Pairwise (fun a b => ¬ Rival a b)) := by
  rw [← holds_iff_rivals h]
  cases r with
  | r2504b99774c5 => simp [unindexed, succeeds_2504b99774c5 h]
  | r2cf5e2bafa8f => simp [unindexed, succeeds_2cf5e2bafa8f h]
  | rc3890ddba5ac => simp [unindexed, succeeds_c3890ddba5ac h]
  | r3c12203559ad => simp [unindexed, succeeds_3c12203559ad h]
  | r29e93f1a2527 => simp [unindexed, succeeds_29e93f1a2527]
  | ra1b2c3d4e5f6 => simp [unindexed, succeeds_a1b2c3d4e5f6]
  | rb2c3d4e5f6a7 => simp [unindexed, succeeds_b2c3d4e5f6a7]
  | rc3d4e5f6a7b8 => simp [unindexed, show Succeeds v .rc3d4e5f6a7b8 d from succeeds_head]

/-- A chain of upgrades that does not succeed stops at a violation. -/
theorem upgrade_violates {r : Revision} (h : Admits (schemaAt r) d) (hr : r ∈ unindexed)
    (hd : ¬ (d .jobs).Pairwise (fun a b => ¬ Rival a b)) :
    upgradeToHead v r d = .error .violation := by
  have hall := alterAll_remaining v r
  cases hrun : upgradeToHead v r d with
  | error e => rw [run_error (by rw [hall]; rfl) hrun]
  | ok y =>
    have hy : y.1 = schemaAt head := Option.some.inj ((alterAll_of_run hrun).symm.trans hall)
    have hs : Succeeds v r d := ⟨y.2,by rw [hrun, ← hy]⟩
    exact absurd ((succeeds_iff h).mp hs hr) hd

/-- The remaining upgrades succeed, and leave what they should, exactly when
the index on active jobs already exists or no two jobs are in its way. -/
theorem upgrade_chain_iff (v : Volatile) (r : Revision) (d : Contents) (h : Admits (schemaAt r) d) :
    (∃ d', upgradeToHead v r d = .ok (schemaAt head,d') ∧ Migrated d d') ↔
      (r ∈ unindexed → (d .jobs).Pairwise (fun a b => ¬ Rival a b)) := by
  rw [← succeeds_iff (v := v) h]
  constructor
  · rintro ⟨d',hrun,-⟩
    exact ⟨d',hrun⟩
  · rintro ⟨d',hrun⟩
    exact ⟨d',hrun,migrated_of_run h hrun⟩

-- jobs and artifacts of account 1, in the columns of `rc3890ddba5ac`
def job (id document : ℤ) (status : Label) : Record
  | .id => .integer id
  | .accountId => .integer 1
  | .documentId => .integer document
  | .status => .label status
  | .artifactTypes => .labels [some .markdown]
  | .attempts => .integer 0
  | .maxAttempts => .integer 3
  | .createdAt => .timestamp 0
  | .queuedAt => .timestamp 0
  | _ => .null

def artifact (id job document : ℤ) : Record
  | .id => .integer id
  | .jobId => .integer job
  | .documentId => .integer document
  | .artifactType => .label .markdown
  | .objectKey => .text "artifacts/1/1.md"
  | .createdAt => .timestamp 0
  | _ => .null

def document (id : ℤ) (key : String) : Record
  | .id => .integer id
  | .objectKey => .text key
  | .accountId => .integer 1
  | .createdAt => .timestamp 0
  | .fileName => .text "report.pdf"
  | _ => .null

/-- An account, its two documents, and the given jobs and artifacts for them. -/
def withJobs (jobs artifacts : List Record) : Contents
  | .accounts => [fun
    | .id => .integer 1
    | .apiKeyHash => .text "hash"
    | _ => .null]
  | .documents => [document 1 "raw/1/1.pdf",document 2 "raw/1/2.pdf"]
  | .jobs => jobs
  | .artifacts => artifacts

def busy : Contents :=
  withJobs [job 1 1 .completed,job 2 1 .queued,job 3 2 .created] [artifact 1 1 1]

def rivals : Contents := withJobs [job 1 1 .queued,job 2 1 .queued] []

theorem admits_samples :
    Admits (schemaAt .rc3890ddba5ac) busy ∧ Admits (schemaAt .rc3890ddba5ac) rivals := by
  decide +kernel

theorem upgrade_chain_iff_sample :
    ∃ d', upgradeToHead still .rc3890ddba5ac busy = .ok (schemaAt head,d') ∧ Migrated busy d' :=
  (upgrade_chain_iff still .rc3890ddba5ac busy admits_samples.1).mpr (fun _ => by decide)

/-- Two queued jobs for one document, which nothing forbids at that revision,
stop the upgrade. -/
theorem upgrade_two_jobs : Admits (schemaAt .rc3890ddba5ac) rivals ∧
    upgradeToHead still .rc3890ddba5ac rivals = .error .violation :=
  ⟨admits_samples.2,upgrade_violates admits_samples.2 (by decide) (by decide)⟩

end Outcome

end DocPipeline.Migrations
