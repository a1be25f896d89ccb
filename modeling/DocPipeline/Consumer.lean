import DocPipeline.Calls

/-!
# The worker's message handler

First the handler as it is written: `handle` for `RabbitMQConsumer._handle`,
with `openSession` for the session context manager, then the same control
flow with every waiting point named. The two agree call by call, so what is
proved of the named machine is proved of the handler.
-/

set_option autoImplicit false

namespace DocPipeline.Consumer
open DocPipeline.Identifiers DocPipeline.Records DocPipeline.Database DocPipeline.Calls
open EffectProgram

/-- `Container.open_session` around a block. A `return` inside the block
leaves through the commit like falling off its end. -/
def openSession {α : Type} (block : Code α) : Code α :=
  withFinally
    (tryExcept (do let a ← block; await .commit; pure a)
      (fun e => do await .rollback; .raise e))
    (await .close)

def process (jobId : Uuid) : Code Unit := do
  let job? ← await (.getForProcessing jobId)
  match job? with
  | none => .raise .jobNotFound
  | some job =>
    let document? ← await (.getDocument job.documentId job.accountId)
    match document? with
    | none => .raise .documentNotFound
    | some document =>
      let content ← await (.getObject document.objectKey)
      let markdown ← await (.parse content)
      let key := artifactKey job.accountId document.id
      await (.putObject key markdown.toUTF8)
      let _ ← await (.createArtifact ⟨jobId,job.documentId,.markdown,key⟩)
      let _ ← await (.updateStatus jobId .completed .started none)
      pure ()

def handleFailure (jobId : Uuid) (attempts maxAttempts : ℕ) (exc : Exc) : Code Unit :=
  tryExcept
    (if attempts < maxAttempts then do
      openSession do
        let _ ← await (.updateStatus jobId .queued .started (some exc.str))
        pure ()
      tryExcept (await (.enqueue (retryPayload jobId))) fun
        | .queue => pure ()
        | e => .raise e
    else
      openSession do
        let _ ← await (.updateStatus jobId .failed .started (some exc.str))
        pure ())
    fun
      | .jobStateConflict => pure ()
      | e => .raise e

def lookupBlock (jobId : Uuid) : Code Bool := do
  let job? ← await (.getForProcessing jobId)
  match job? with
  | none => do await .ack; pure false
  | some job =>
    if job.status = .queued then pure true
    else do await .ack; pure false

def claimBlock (jobId : Uuid) : Code (Option JobRow) :=
  attempt (await (.updateStatus jobId .started .queued none)) fun
    | .ok started => pure (some started)
    | .error .jobStateConflict => do await .ack; pure none
    | .error .database => do await .nack; pure none
    | .error e => .raise e

def handle (body : Body) : Code Unit :=
  match decode body with
  | .escapes e => .raise e
  | .poison => await .ack
  | .job jobId => do
    let queued ← openSession (lookupBlock jobId)
    if queued then
      let claim ← openSession (claimBlock jobId)
      match claim with
      | none => pure ()
      | some started =>
        tryExcept (do openSession (process jobId); await .ack) fun e => do
          handleFailure jobId started.attempts started.maxAttempts e
          await .ack
    else pure ()

/-- The sessions of the handler, by where control goes when they are left:
`dropping` after an ack inside the block, `claiming` when the claim failed,
the others when their block reached its end. -/
inductive Site where
  | dropping
  | looked (job : Uuid)
  | claiming
  | claimed (job : Uuid) (started : JobRow)
  | processed (job : Uuid) (started : JobRow)
  | requeued (job : Uuid) (started : JobRow)
  | failed (job : Uuid) (started : JobRow)

/-- The waiting points of the handler. `raised` remembers whether the handler
had decided to drop its message. -/
inductive Phase where
  | ackPoison
  | lookup (job : Uuid)
  | ackDrop
  | claim (job : Uuid)
  | nack
  | processJob (job : Uuid) (started : JobRow)
  | processDocument (job : Uuid) (started row : JobRow)
  | processFetch (job : Uuid) (started row : JobRow) (document : DocumentRow)
  | processParse (job : Uuid) (started row : JobRow) (document : DocumentRow) (content : Bytes)
  | processPut (job : Uuid) (started row : JobRow) (document : DocumentRow) (markdown : String)
  | processArtifact (job : Uuid) (started row : JobRow) (document : DocumentRow)
      (markdown : String)
  | processComplete (job : Uuid) (started row : JobRow) (document : DocumentRow)
      (markdown : String)
  | ackSuccess (job : Uuid) (started : JobRow)
  | requeue (job : Uuid) (started : JobRow) (exc : Exc)
  | fail (job : Uuid) (started : JobRow) (exc : Exc)
  | enqueue (job : Uuid) (started : JobRow)
  | ackFailure
  | commit (site : Site)
  | rollback (site : Site) (exc : Exc)
  | close (site : Site) (exc : Option Exc)
  | returned
  | raised (dropped : Bool) (exc : Exc)

def onFailure (job : Uuid) (started : JobRow) (exc : Exc) : Phase :=
  if started.attempts < started.maxAttempts then .requeue job started exc
  else .fail job started exc

def leave : Site → Option Exc → Phase
  | .dropping, none => .returned
  | .dropping, some e => .raised true e
  | .looked job, none => .claim job
  | .looked _, some e => .raised false e
  | .claiming, none => .returned
  | .claiming, some e => .raised false e
  | .claimed job started, none => .processJob job started
  | .claimed _ _, some e => .raised false e
  | .processed job started, none => .ackSuccess job started
  | .processed job started, some e => onFailure job started e
  | .requeued job started, none => .enqueue job started
  | .requeued _ _, some .jobStateConflict => .ackFailure
  | .requeued _ _, some e => .raised false e
  | .failed _ _, none => .ackFailure
  | .failed _ _, some .jobStateConflict => .ackFailure
  | .failed _ _, some e => .raised false e

def view : Phase → Waiting Unit Phase
  | .ackPoison => .calls .ack fun
    | .ok _ => .returned
    | .error e => .raised true e
  | .lookup job => .calls (.getForProcessing job) fun
    | .ok none => .ackDrop
    | .ok (some row) => if row.status = .queued then .commit (.looked job) else .ackDrop
    | .error e => .rollback (.looked job) e
  | .ackDrop => .calls .ack fun
    | .ok _ => .commit .dropping
    | .error e => .rollback .dropping e
  | .claim job => .calls (.updateStatus job .started .queued none) fun
    | .ok started => .commit (.claimed job started)
    | .error .jobStateConflict => .ackDrop
    | .error .database => .nack
    | .error e => .rollback .claiming e
  | .nack => .calls .nack fun
    | .ok _ => .commit .claiming
    | .error e => .rollback .claiming e
  | .processJob job started => .calls (.getForProcessing job) fun
    | .ok none => .rollback (.processed job started) .jobNotFound
    | .ok (some row) => .processDocument job started row
    | .error e => .rollback (.processed job started) e
  | .processDocument job started row => .calls (.getDocument row.documentId row.accountId) fun
    | .ok none => .rollback (.processed job started) .documentNotFound
    | .ok (some document) => .processFetch job started row document
    | .error e => .rollback (.processed job started) e
  | .processFetch job started row document => .calls (.getObject document.objectKey) fun
    | .ok content => .processParse job started row document content
    | .error e => .rollback (.processed job started) e
  | .processParse job started row document content => .calls (.parse content) fun
    | .ok markdown => .processPut job started row document markdown
    | .error e => .rollback (.processed job started) e
  | .processPut job started row document markdown =>
    .calls (.putObject (artifactKey row.accountId document.id) markdown.toUTF8) fun
      | .ok _ => .processArtifact job started row document markdown
      | .error e => .rollback (.processed job started) e
  | .processArtifact job started row document markdown =>
    .calls (.createArtifact
        ⟨job,row.documentId,.markdown,artifactKey row.accountId document.id⟩) fun
      | .ok _ => .processComplete job started row document markdown
      | .error e => .rollback (.processed job started) e
  | .processComplete job started _ _ _ => .calls (.updateStatus job .completed .started none) fun
    | .ok _ => .commit (.processed job started)
    | .error e => .rollback (.processed job started) e
  | .ackSuccess job started => .calls .ack fun
    | .ok _ => .returned
    | .error e => onFailure job started e
  | .requeue job started exc => .calls (.updateStatus job .queued .started (some exc.str)) fun
    | .ok _ => .commit (.requeued job started)
    | .error e => .rollback (.requeued job started) e
  | .fail job started exc => .calls (.updateStatus job .failed .started (some exc.str)) fun
    | .ok _ => .commit (.failed job started)
    | .error e => .rollback (.failed job started) e
  | .enqueue job _ => .calls (.enqueue (retryPayload job)) fun
    | .ok _ => .ackFailure
    | .error .queue => .ackFailure
    | .error .jobStateConflict => .ackFailure
    | .error e => .raised false e
  | .ackFailure => .calls .ack fun
    | .ok _ => .returned
    | .error e => .raised true e
  | .commit site => .calls .commit fun
    | .ok _ => .close site none
    | .error e => .rollback site e
  | .rollback site exc => .calls .rollback fun
    | .ok _ => .close site (some exc)
    | .error e => .close site (some e)
  | .close site exc => .calls .close fun
    | .ok _ => leave site exc
    | .error e => leave site (some e)
  | .returned => .ended (.ok ())
  | .raised _ e => .ended (.error e)

def start (body : Body) : Phase :=
  match decode body with
  | .escapes e => .raised false e
  | .poison => .ackPoison
  | .job jobId => .lookup jobId

end DocPipeline.Consumer
