import DocPipeline.Identifiers
import DocPipeline.Library.Table

/-!
# Rows, exceptions and messages

The rows carry every column of the mapped classes. Times are readings of
`datetime.now()`. A message body is classified by what `json.loads` makes of
it; only the `job_id` member of a parsed value is ever read.
-/

set_option autoImplicit false

namespace DocPipeline.Records
open DocPipeline.Identifiers KeyedTable

abbrev Time := ℕ
abbrev Bytes := ByteArray

inductive JobStatus where
  | queued
  | started
  | completed
  | failed
  deriving DecidableEq, Repr

def JobStatus.active : JobStatus → Bool
  | .queued => true
  | .started => true
  | .completed => false
  | .failed => false

inductive ArtifactType where
  | markdown
  deriving DecidableEq, Repr

def ArtifactType.value : ArtifactType → String
  | .markdown => "markdown"

structure DocumentRow where
  id : Uuid
  objectKey : String
  accountId : AccountId
  createdAt : Time
  deriving DecidableEq

structure JobRow where
  id : Uuid
  accountId : AccountId
  documentId : Uuid
  status : JobStatus
  artifactTypes : List ArtifactType
  attempts : ℕ
  maxAttempts : ℕ
  errorMessage : Option String
  createdAt : Time
  queuedAt : Option Time
  startedAt : Option Time
  completedAt : Option Time
  lastAttemptAt : Option Time
  failedAt : Option Time
  deriving DecidableEq

structure ArtifactRow where
  id : Uuid
  jobId : Uuid
  documentId : Uuid
  artifactType : ArtifactType
  objectKey : String
  createdAt : Time
  deriving DecidableEq

def ArtifactRow.slot (r : ArtifactRow) : Uuid × ArtifactType := (r.documentId,r.artifactType)

structure CreateJobDTO where
  accountId : AccountId
  documentId : Uuid
  artifactTypes : List ArtifactType
  deriving DecidableEq

structure CreateDocumentDTO where
  id : Uuid
  objectKey : String
  accountId : AccountId
  deriving DecidableEq

structure CreateArtifactDTO where
  jobId : Uuid
  documentId : Uuid
  artifactType : ArtifactType
  objectKey : String
  deriving DecidableEq

/-- The service exceptions, and any exception of another class by its text. -/
inductive Exc where
  | documentNotFound
  | documentNotUploaded
  | jobNotFound
  | backpressure
  | activeJobExists
  | storage
  | queue
  | database
  | jobStateConflict
  | other (text : String)
  deriving DecidableEq, Repr

def Exc.str : Exc → String
  | .documentNotFound => "Document not found."
  | .documentNotUploaded => "Document has not been uploaded."
  | .jobNotFound => "Job not found."
  | .backpressure => "Queue capacity exceeded. Retry later."
  | .activeJobExists => "An active job already exists for this document."
  | .storage => "Storage service unavailable."
  | .queue => "Queue service unavailable."
  | .database => "Database service unavailable."
  | .jobStateConflict => "Job status conflict: concurrent write detected."
  | .other text => text

inductive Json where
  | null
  | bool (b : Bool)
  | int (n : ℤ)
  | float (text : String)
  | str (s : String)
  | arr (items : List Json)
  | obj (members : List (String × Json))

/-- A message body by the result of `json.loads`: a value, a decoding error,
or `RecursionError` when the nesting exceeds the interpreter's limit. -/
inductive Body where
  | json (value : Json)
  | malformed
  | tooDeep

/-- The text `str(value)` where `uuid.UUID` may take it. The text of any other
JSON value has a quote, a bracket or a point in it, or is too short. -/
def Json.uuidText : Json → Option String
  | .str s => some s
  | .int n => some (toString n)
  | _ => none

/-- `payload["job_id"]`; of repeated members the last one counts. -/
def Json.jobId : Json → Option Json
  | .obj members => (members.reverse.find? (fun m => m.1 = "job_id")).map Prod.snd
  | _ => none

/-- What the first `try` block of `_handle` makes of a body. `RecursionError`
is in none of the exception classes that the block catches. -/
inductive Decoded where
  | job (id : Uuid)
  | poison
  | escapes (e : Exc)
  deriving DecidableEq

def decode : Body → Decoded
  | .malformed => .poison
  | .tooDeep => .escapes (.other "maximum recursion depth exceeded")
  | .json payload =>
    match (payload.jobId.bind Json.uuidText).bind Uuid.parse with
    | some id => .job id
    | none => .poison

def newJobPayload (job : JobRow) : Json :=
  .obj [("job_id",.str (Uuid.str job.id)),("document_id",.str (Uuid.str job.documentId)),
    ("artifact_types",.arr (job.artifactTypes.map (fun t => .str t.value)))]

def retryPayload (jobId : Uuid) : Json := .obj [("job_id",.str (Uuid.str jobId))]

theorem decode_newJobPayload (job : JobRow) : decode (.json (newJobPayload job)) = .job job.id := by
  simp [decode, newJobPayload, Json.jobId, Json.uuidText, parse_str]

theorem decode_retryPayload (jobId : Uuid) : decode (.json (retryPayload jobId)) = .job jobId := by
  simp [decode, retryPayload, Json.jobId, Json.uuidText, parse_str]

inductive Producer where
  | api
  | worker
  | outside
  deriving DecidableEq, Repr

structure Message where
  body : Body
  producer : Producer

def Message.jobId (m : Message) : Option Uuid :=
  match decode m.body with
  | .job id => some id
  | _ => none

inductive Url where
  | put (key : String)
  | get (key : String)
  deriving DecidableEq, Repr

def Url.key : Url → String
  | .put key => key
  | .get key => key

end DocPipeline.Records
