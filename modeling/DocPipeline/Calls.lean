import DocPipeline.Database
import DocPipeline.Library.Program

/-!
# Calls on the database, the broker and the object store

Everything the services do outside their own memory is a call. Statements of
an open transaction wait in `inflight`, where they hold their row against
every other transaction until commit or rollback. A call succeeds, fails
without effect, or takes effect while its caller sees an exception.
-/

set_option autoImplicit false

namespace DocPipeline.Calls
open DocPipeline.Identifiers DocPipeline.Records DocPipeline.Database EffectProgram

inductive Proc where
  | worker (w : ℕ)
  | request (r : ℕ)
  deriving DecidableEq, Repr

structure JobResponse where
  id : Uuid
  documentId : Uuid
  status : JobStatus
  artifactTypes : List ArtifactType
  attempts : ℕ
  maxAttempts : ℕ
  errorMessage : Option String
  createdAt : Time
  queuedAt : Option Time
  startedAt : Option Time
  completedAt : Option Time
  lastAttemptAt : Option Time
  failedAt : Option Time
  deriving DecidableEq

inductive Response where
  | documentCreated (id : Uuid) (uploadUrl : Url)
  | jobCreated (job : JobResponse)
  | document (id : Uuid) (createdAt : Time)
  | artifacts (items : List (Uuid × ArtifactType × Url))
  | job (job : JobResponse)
  | error (e : Exc)
  deriving DecidableEq

inductive Call where
  | getForProcessing (jobId : Uuid)
  | updateStatus (jobId : Uuid) (status expected : JobStatus) (errorMessage : Option String)
  | createJob (dto : CreateJobDTO)
  | getJob (jobId : Uuid) (accountId : AccountId)
  | createDocument (dto : CreateDocumentDTO)
  | getDocument (documentId : Uuid) (accountId : AccountId)
  | createArtifact (dto : CreateArtifactDTO)
  | listArtifacts (documentId : Uuid) (accountId : AccountId)
  | commit
  | rollback
  | close
  | objectExists (key : String)
  | getObject (key : String)
  | putObject (key : String) (content : Bytes)
  | generateUploadUrl (key : String)
  | generateDownloadUrl (key : String)
  | parse (content : Bytes)
  | enqueue (payload : Json)
  | queueDepth
  | ack
  | nack
  | uuid4
  | respond (response : Response)

abbrev Call.Resp : Call → Type
  | .getForProcessing _ => Option JobRow
  | .updateStatus _ _ _ _ => JobRow
  | .createJob _ => JobRow
  | .getJob _ _ => Option JobRow
  | .createDocument _ => DocumentRow
  | .getDocument _ _ => Option DocumentRow
  | .createArtifact _ => ArtifactRow
  | .listArtifacts _ _ => List ArtifactRow
  | .objectExists _ => Bool
  | .getObject _ => Bytes
  | .generateUploadUrl _ => Url
  | .generateDownloadUrl _ => Url
  | .parse _ => String
  | .queueDepth => ℕ
  | .uuid4 => Uuid
  | _ => Unit

abbrev Code := Prog Call Call.Resp Exc

abbrev Waiting := Node Call Call.Resp Exc

def await (c : Call) : Code c.Resp := perform c

/-- What can go wrong inside a call: an exception of the class its adapter
translates, or one of any other class, which the adapter lets through. -/
inductive Fault where
  | mapped
  | unmapped (text : String)
  deriving DecidableEq, Repr

def Call.mapped : Call → Exc
  | .commit | .rollback | .close => .other "sqlalchemy.exc.SQLAlchemyError"
  | .objectExists _ | .getObject _ | .putObject _ _ => .storage
  | .generateUploadUrl _ | .generateDownloadUrl _ => .storage
  | .enqueue _ | .queueDepth => .queue
  | .ack | .nack => .other "aio_pika.exceptions.AMQPError"
  | .parse _ => .other "pymupdf.FileDataError"
  | .uuid4 | .respond _ => .other "OSError"
  | _ => .database

def Call.fault (c : Call) : Fault → Exc
  | .mapped => c.mapped
  | .unmapped text => .other text

def Call.onSession : Call → Bool
  | .getForProcessing _ | .updateStatus _ _ _ _ | .createJob _ | .getJob _ _ => true
  | .createDocument _ | .getDocument _ _ | .createArtifact _ | .listArtifacts _ _ => true
  | .commit | .rollback | .close => true
  | _ => false

/-- Calls whose effect another process can see when the caller does not
learn that they succeeded. -/
def Call.external : Call → Bool
  | .commit | .putObject _ _ | .enqueue _ | .ack | .nack => true
  | _ => false

def Response.urls : Response → List Url
  | .documentCreated _ uploadUrl => [uploadUrl]
  | .artifacts items => items.map (fun i => i.2.2)
  | _ => []

/-- What an observer of the whole system could write down. Attempts are
counted from one; the message published by the API belongs to attempt zero. -/
inductive Event where
  | created (job : Uuid)
  | moved (mover : Proc) (job : Uuid) (old new : JobStatus) (attempt : ℕ)
  | processCalled (job : Uuid) (attempt : ℕ)
  | failureHandled (job : Uuid) (attempt : ℕ) (text : String)
  | put (job : Uuid) (attempt : ℕ) (content : Bytes)
  | published (job : Uuid) (attempt : ℕ)
  | received (account : AccountId) (response : Response)
  deriving DecidableEq

/-- `minted` lists every UUID handed out so far, `wire` the responses sent and
not yet received; `history` is newest first. -/
structure World where
  db : Tables
  inflight : List (Proc × Write)
  objects : String → Option Bytes
  ready : List Message
  unsettled : ℕ → Option Message
  minted : List Uuid
  wire : ℕ → Option Response
  history : List Event

/-- Values a call receives from outside: clock readings, a fresh UUID, the
parser's text and the default of the column `max_attempts`. -/
structure Oracle where
  now : Time := 0
  again : Time := 0
  uuid : Uuid := 0
  text : String := ""
  maxAttempts : ℕ := 3

namespace World

def writesOf (σ : World) (p : Proc) : List Write :=
  (σ.inflight.filter (fun e => e.1 = p)).map Prod.snd

def discard (σ : World) (p : Proc) : World :=
  { σ with inflight := σ.inflight.filter (fun e => e.1 ≠ p) }

def addWrite (σ : World) (p : Proc) (w : Write) : World :=
  { σ with inflight := σ.inflight ++ [(p,w)] }

end World

def updatesJob (id : Uuid) : Write → Bool
  | .updateJob old _ => old.id = id
  | _ => false

def usesIndexEntry (account : AccountId) (document : Uuid) : Write → Bool
  | .insertJob row => row.accountId = account && row.documentId = document
  | .updateJob old _ => old.status.active && old.accountId = account && old.documentId = document
  | _ => false

def usesSlot (slot : Uuid × ArtifactType) : Write → Bool
  | .upsertArtifact row => row.slot = slot
  | _ => false

/-- A statement waits while another transaction holds what it needs. -/
def World.held (σ : World) (p : Proc) (uses : Write → Bool) : Bool :=
  σ.inflight.any fun e => e.1 ≠ p && uses e.2

def writeEvents (p : Proc) : Write → List Event
  | .insertJob row => [.created row.id]
  | .updateJob old new => [.moved p new.id old.status new.status new.attempts]
  | _ => []

def World.commit (σ : World) (p : Proc) : World :=
  { σ.discard p with
    db := (σ.writesOf p).foldl Write.apply σ.db
    history := ((σ.writesOf p).flatMap (writeEvents p)).reverse ++ σ.history }

def World.publish (σ : World) (p : Proc) (payload : Json) : World :=
  let producer := match p with
    | .worker _ => Producer.worker
    | .request _ => Producer.api
  { σ with ready := σ.ready ++ [⟨.json payload,producer⟩] }

def World.settle (σ : World) : Proc → World
  | .worker w => { σ with unsettled := Function.update σ.unsettled w none }
  | .request _ => σ

def World.requeue (σ : World) : Proc → World
  | .worker w => match σ.unsettled w with
    | some m => { σ with ready := m::σ.ready, unsettled := Function.update σ.unsettled w none }
    | none => σ
  | .request _ => σ

def World.send (σ : World) : Proc → Response → World
  | .worker _, _ => σ
  | .request r, response => { σ with wire := Function.update σ.wire r (some response) }

/-- The result of a call whose resources all work; `none` while it waits. -/
def serve (σ : World) (p : Proc) (o : Oracle) :
    (c : Call) → Option (Except Exc c.Resp × World)
  | .getForProcessing jobId => some (.ok (σ.db.jobs.get jobId),σ)
  | .updateStatus jobId status expected errorMessage =>
    if σ.held p (updatesJob jobId) then none else
    match σ.db.jobs.get jobId with
    | some old =>
      if old.status = expected then
        let new := updated status errorMessage o.now o.again old
        some (.ok new,σ.addWrite p (.updateJob old new))
      else some (.error .jobStateConflict,σ)
    | none => some (.error .jobStateConflict,σ)
  | .createJob dto =>
    if σ.held p (usesIndexEntry dto.accountId dto.documentId) then none
    else if σ.db.activeJobExists dto.accountId dto.documentId then
      some (.error .activeJobExists,σ.discard p)
    else if o.uuid ∈ σ.minted then none
    else
      let row := newJob dto o.uuid o.maxAttempts o.now o.again
      some (.ok row,{ σ.addWrite p (.insertJob row) with minted := o.uuid::σ.minted })
  | .getJob jobId accountId => some (.ok (σ.db.getJob jobId accountId),σ)
  | .createDocument dto =>
    let row := newDocument dto o.now
    some (.ok row,σ.addWrite p (.insertDocument row))
  | .getDocument documentId accountId => some (.ok (σ.db.getDocument documentId accountId),σ)
  | .createArtifact dto =>
    if σ.held p (usesSlot (dto.documentId,dto.artifactType)) then none
    else if o.uuid ∈ σ.minted then none
    else
      let row := newArtifact dto o.uuid o.now
      let stored := ((σ.db.artifacts.get row.slot).map (refresh · row)).getD row
      some (.ok stored,{ σ.addWrite p (.upsertArtifact row) with minted := o.uuid::σ.minted })
  | .listArtifacts documentId accountId =>
    some (.ok (σ.db.listArtifacts documentId accountId),σ)
  | .commit => some (.ok (),σ.commit p)
  | .rollback => some (.ok (),σ.discard p)
  | .close => some (.ok (),σ.discard p)
  | .objectExists key => some (.ok (σ.objects key).isSome,σ)
  | .getObject key =>
    match σ.objects key with
    | some content => some (.ok content,σ)
    | none => some (.error .storage,σ)
  | .putObject key content =>
    some (.ok (),{ σ with objects := Function.update σ.objects key (some content) })
  | .generateUploadUrl key => some (.ok (.put key),σ)
  | .generateDownloadUrl key => some (.ok (.get key),σ)
  | .parse _ => some (.ok o.text,σ)
  | .enqueue payload => some (.ok (),σ.publish p payload)
  | .queueDepth => some (.ok σ.ready.length,σ)
  | .ack => some (.ok (),σ.settle p)
  | .nack => some (.ok (),σ.requeue p)
  | .uuid4 => if o.uuid ∈ σ.minted then none
      else some (.ok o.uuid,{ σ with minted := o.uuid::σ.minted })
  | .respond response => some (.ok (),σ.send p response)

inductive Outcome where
  | ok
  | raises (f : Fault)
  | raisesAfter (f : Fault)
  deriving DecidableEq, Repr

/-- A statement that fails aborts its transaction, so nothing of it is left
to commit. -/
def World.abandon (σ : World) (p : Proc) (c : Call) : World :=
  if c.onSession then σ.discard p else σ

def exec (σ : World) (p : Proc) (o : Oracle) (c : Call) :
    Outcome → Option (Except Exc c.Resp × World)
  | .ok => serve σ p o c
  | .raises f => some (.error (c.fault f),σ.abandon p c)
  | .raisesAfter f =>
    if c.external then (serve σ p o c).map (fun r => (.error (c.fault f),r.2)) else none

end DocPipeline.Calls
