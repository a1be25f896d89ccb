import DocPipeline.Records

/-!
# The committed tables and the repository statements

A statement inside a session produces a `Write`, which changes the tables
only when its transaction commits. `updated` is the column assignment of
`JobRepository.update_status`; `refresh` is the `set_` clause of the artifact
upsert, which leaves `id` and `created_at` of an existing row alone.
-/

set_option autoImplicit false

namespace DocPipeline.Database
open DocPipeline.Identifiers DocPipeline.Records KeyedTable

structure Tables where
  documents : Table DocumentRow.id
  jobs : Table JobRow.id
  artifacts : Table ArtifactRow.slot

def Tables.empty : Tables := ⟨.empty,.empty,.empty⟩

/-- `_STATUS_TIMESTAMP`: the timestamp column of a status receives `now`. -/
def stamp (status : JobStatus) (now : Time) (row : JobRow) : JobRow :=
  match status with
  | .queued => { row with queuedAt := some now }
  | .started => { row with startedAt := some now }
  | .completed => { row with completedAt := some now }
  | .failed => { row with failedAt := some now }

/-- The assignment of `update_status`; `now` and `again` are the readings of
`datetime.now()` for the status column and for `last_attempt_at`. -/
def updated (status : JobStatus) (errorMessage : Option String) (now again : Time)
    (old : JobRow) : JobRow :=
  let row := stamp status now { old with status := status }
  let row := if status = .started then
      { row with lastAttemptAt := some again, attempts := row.attempts+1 } else row
  match errorMessage with
  | some text => { row with errorMessage := some text }
  | none => row

/-- The row inserted by `JobRepository.create`; `id` and `maxAttempts` are
column defaults. -/
def newJob (dto : CreateJobDTO) (id : Uuid) (maxAttempts : ℕ) (now again : Time) : JobRow where
  id := id
  accountId := dto.accountId
  documentId := dto.documentId
  status := .queued
  artifactTypes := dto.artifactTypes
  attempts := 0
  maxAttempts := maxAttempts
  errorMessage := none
  createdAt := again
  queuedAt := some now
  startedAt := none
  completedAt := none
  lastAttemptAt := none
  failedAt := none

def newDocument (dto : CreateDocumentDTO) (now : Time) : DocumentRow where
  id := dto.id
  objectKey := dto.objectKey
  accountId := dto.accountId
  createdAt := now

def newArtifact (dto : CreateArtifactDTO) (id : Uuid) (now : Time) : ArtifactRow where
  id := id
  jobId := dto.jobId
  documentId := dto.documentId
  artifactType := dto.artifactType
  objectKey := dto.objectKey
  createdAt := now

def refresh (old row : ArtifactRow) : ArtifactRow :=
  { old with jobId := row.jobId, objectKey := row.objectKey }

inductive Write where
  | insertDocument (row : DocumentRow)
  | insertJob (row : JobRow)
  | updateJob (old new : JobRow)
  | upsertArtifact (row : ArtifactRow)

def Write.apply (db : Tables) : Write → Tables
  | .insertDocument row => { db with documents := db.documents.insert row }
  | .insertJob row => { db with jobs := db.jobs.insert row }
  | .updateJob _ new => { db with jobs := db.jobs.put new }
  | .upsertArtifact row => { db with artifacts := db.artifacts.upsert refresh row }

/-- The condition under which the partial unique index refuses an insert. -/
def Tables.activeJobExists (db : Tables) (account : AccountId) (document : Uuid) : Bool :=
  db.jobs.rows.any fun r => r.status.active && r.accountId = account && r.documentId = document

def Tables.getDocument (db : Tables) (id : Uuid) (account : AccountId) : Option DocumentRow :=
  (db.documents.get id).filter (fun r => r.accountId = account)

def Tables.getJob (db : Tables) (id : Uuid) (account : AccountId) : Option JobRow :=
  (db.jobs.get id).filter (fun r => r.accountId = account)

def Tables.listArtifacts (db : Tables) (document : Uuid) (account : AccountId) : List ArtifactRow :=
  db.artifacts.rows.filter fun r => r.documentId = document &&
    (db.documents.get r.documentId).any (fun d => d.accountId = account)

section Columns
variable (status : JobStatus) (err : Option String) (now again : Time) (old : JobRow)

theorem updated_id : (updated status err now again old).id = old.id := by
  cases status <;> cases err <;> rfl

theorem updated_accountId : (updated status err now again old).accountId = old.accountId := by
  cases status <;> cases err <;> rfl

theorem updated_documentId : (updated status err now again old).documentId = old.documentId := by
  cases status <;> cases err <;> rfl

theorem updated_status : (updated status err now again old).status = status := by
  cases status <;> cases err <;> rfl

theorem updated_maxAttempts :
    (updated status err now again old).maxAttempts = old.maxAttempts := by
  cases status <;> cases err <;> rfl

theorem updated_attempts : (updated status err now again old).attempts =
    if status = .started then old.attempts+1 else old.attempts := by
  cases status <;> cases err <;> rfl

theorem updated_errorMessage : (updated status err now again old).errorMessage =
    err.orElse (fun _ => old.errorMessage) := by
  cases status <;> cases err <;> rfl

end Columns

attribute [simp] updated_id updated_accountId updated_documentId updated_status
  updated_maxAttempts updated_attempts updated_errorMessage

theorem activeJobExists_iff (db : Tables) (account : AccountId) (document : Uuid) :
    db.activeJobExists account document = true ↔ ∃ r ∈ db.jobs.rows,
      r.status.active = true ∧ r.accountId = account ∧ r.documentId = document := by
  simp [Tables.activeJobExists, and_assoc]

theorem getDocument_eq_some {db : Tables} {id : Uuid} {account : AccountId} {row : DocumentRow} :
    db.getDocument id account = some row ↔
      db.documents.get id = some row ∧ row.accountId = account := by
  simp [Tables.getDocument, Option.filter_eq_some_iff]

theorem getJob_eq_some {db : Tables} {id : Uuid} {account : AccountId} {row : JobRow} :
    db.getJob id account = some row ↔ db.jobs.get id = some row ∧ row.accountId = account := by
  simp [Tables.getJob, Option.filter_eq_some_iff]

end DocPipeline.Database
