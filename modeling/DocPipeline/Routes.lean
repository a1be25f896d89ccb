import DocPipeline.Calls
import DocPipeline.HandlerMachine

/-!
# The routes of the API

Each route runs inside the session of the `get_db_session` dependency. Its
response is sent when the handler returns; the exit code of the dependency,
and with it the commit, runs after that. An exception rolls the session back
first and is then answered by the application's exception handlers.
-/

set_option autoImplicit false

namespace DocPipeline.Routes
open DocPipeline.Identifiers DocPipeline.Records DocPipeline.Database DocPipeline.Calls
open EffectProgram DocPipeline.HandlerMachine

inductive Route where
  | createDocument
  | processDocument (documentId : Uuid) (artifactTypes : List ArtifactType)
  | getDocument (documentId : Uuid)
  | listArtifacts (documentId : Uuid)
  | getJob (jobId : Uuid)

def toResponse (job : JobRow) : JobResponse where
  id := job.id
  documentId := job.documentId
  status := job.status
  artifactTypes := job.artifactTypes
  attempts := job.attempts
  maxAttempts := job.maxAttempts
  errorMessage := job.errorMessage
  createdAt := job.createdAt
  queuedAt := job.queuedAt
  startedAt := job.startedAt
  completedAt := job.completedAt
  lastAttemptAt := job.lastAttemptAt
  failedAt := job.failedAt

def createDocument (account : AccountId) : Code Response := do
  let documentId ← await .uuid4
  let document ← await (.createDocument ⟨documentId,rawKey account documentId,account⟩)
  let uploadUrl ← await (.generateUploadUrl document.objectKey)
  pure (.documentCreated document.id uploadUrl)

def createJob (threshold : ℕ) (dto : CreateJobDTO) : Code JobRow := do
  let document? ← await (.getDocument dto.documentId dto.accountId)
  match document? with
  | none => .raise .documentNotFound
  | some document =>
    let uploaded ← await (.objectExists document.objectKey)
    if uploaded then
      let depth ← await .queueDepth
      if threshold ≤ depth then .raise .backpressure
      else
        let job ← await (.createJob dto)
        await .commit
        await (.enqueue (newJobPayload job))
        pure job
    else .raise .documentNotUploaded

def processDocument (threshold : ℕ) (dto : CreateJobDTO) : Code Response := do
  let job ← createJob threshold dto
  pure (.jobCreated (toResponse job))

def getDocument (account : AccountId) (documentId : Uuid) : Code Response := do
  let document? ← await (.getDocument documentId account)
  match document? with
  | none => .raise .documentNotFound
  | some document => pure (.document document.id document.createdAt)

def signAll : List ArtifactRow → List (Uuid × ArtifactType × Url) → Code Response
  | [], done => pure (.artifacts done)
  | artifact::rest, done => do
    let url ← await (.generateDownloadUrl artifact.objectKey)
    signAll rest (done++[(artifact.id,artifact.artifactType,url)])

def listArtifacts (account : AccountId) (documentId : Uuid) : Code Response := do
  let document? ← await (.getDocument documentId account)
  match document? with
  | none => .raise .documentNotFound
  | some _ =>
    let artifacts ← await (.listArtifacts documentId account)
    signAll artifacts []

def getJob (account : AccountId) (jobId : Uuid) : Code Response := do
  let job? ← await (.getJob jobId account)
  match job? with
  | none => .raise .jobNotFound
  | some job => pure (.job (toResponse job))

def handler (threshold : ℕ) (account : AccountId) : Route → Code Response
  | .createDocument => createDocument account
  | .processDocument documentId artifactTypes =>
    processDocument threshold ⟨account,documentId,artifactTypes⟩
  | .getDocument documentId => getDocument account documentId
  | .listArtifacts documentId => listArtifacts account documentId
  | .getJob jobId => getJob account jobId

def answerError : Except Exc Unit → Code Unit
  | .ok _ => .ret ()
  | .error e => await (.respond (.error e))

/-- What follows a route handler: the response and then the exit code of the
session dependency, or the rollback and then the error response. -/
def dispatch : Except Exc Response → Code Unit
  | .ok response => attempt (await (.respond response)) fun
    | .ok _ => committing ofExcept ()
    | .error e => rolling ofExcept e
  | .error e => rolling answerError e

def request (threshold : ℕ) (account : AccountId) (route : Route) : Code Unit :=
  attempt (handler threshold account route) dispatch

/-- The waiting points of a request. `sent` records that the response has
left before the session failed to commit. -/
inductive Stage where
  | mintDocument (account : AccountId)
  | insertDocument (account : AccountId) (id : Uuid)
  | signUpload (document : DocumentRow)
  | findDocument (dto : CreateJobDTO)
  | checkObject (dto : CreateJobDTO) (document : DocumentRow)
  | checkDepth (dto : CreateJobDTO) (document : DocumentRow)
  | insertJob (dto : CreateJobDTO) (document : DocumentRow)
  | commitJob (job : JobRow)
  | enqueueJob (job : JobRow)
  | readDocument (account : AccountId) (id : Uuid)
  | listDocument (account : AccountId) (id : Uuid)
  | listRows (account : AccountId) (id : Uuid)
  | signDownloads (artifact : ArtifactRow) (rest : List ArtifactRow)
      (done : List (Uuid × ArtifactType × Url))
  | readJob (account : AccountId) (id : Uuid)
  | respond (response : Response)
  | commit (response : Response)
  | rollback (sent : Bool) (exc : Exc)
  | close (sent : Bool) (exc : Option Exc)
  | respondError (exc : Exc)
  | finished
  | crashed (exc : Exc)

def signing : List ArtifactRow → List (Uuid × ArtifactType × Url) → Stage
  | [], done => .respond (.artifacts done)
  | artifact::rest, done => .signDownloads artifact rest done

def leaveRequest : Bool → Option Exc → Stage
  | _, none => .finished
  | true, some e => .crashed e
  | false, some e => .respondError e

def viewStage (threshold : ℕ) : Stage → Waiting Unit Stage
  | .mintDocument account => .calls .uuid4 fun
    | .ok id => .insertDocument account id
    | .error e => .rollback false e
  | .insertDocument account id => .calls (.createDocument ⟨id,rawKey account id,account⟩) fun
    | .ok document => .signUpload document
    | .error e => .rollback false e
  | .signUpload document => .calls (.generateUploadUrl document.objectKey) fun
    | .ok url => .respond (.documentCreated document.id url)
    | .error e => .rollback false e
  | .findDocument dto => .calls (.getDocument dto.documentId dto.accountId) fun
    | .ok none => .rollback false .documentNotFound
    | .ok (some document) => .checkObject dto document
    | .error e => .rollback false e
  | .checkObject dto document => .calls (.objectExists document.objectKey) fun
    | .ok uploaded => if uploaded then .checkDepth dto document
        else .rollback false .documentNotUploaded
    | .error e => .rollback false e
  | .checkDepth dto document => .calls .queueDepth fun
    | .ok depth => if threshold ≤ depth then .rollback false .backpressure
        else .insertJob dto document
    | .error e => .rollback false e
  | .insertJob dto _ => .calls (.createJob dto) fun
    | .ok job => .commitJob job
    | .error e => .rollback false e
  | .commitJob job => .calls .commit fun
    | .ok _ => .enqueueJob job
    | .error e => .rollback false e
  | .enqueueJob job => .calls (.enqueue (newJobPayload job)) fun
    | .ok _ => .respond (.jobCreated (toResponse job))
    | .error e => .rollback false e
  | .readDocument account id => .calls (.getDocument id account) fun
    | .ok none => .rollback false .documentNotFound
    | .ok (some document) => .respond (.document document.id document.createdAt)
    | .error e => .rollback false e
  | .listDocument account id => .calls (.getDocument id account) fun
    | .ok none => .rollback false .documentNotFound
    | .ok (some _) => .listRows account id
    | .error e => .rollback false e
  | .listRows account id => .calls (.listArtifacts id account) fun
    | .ok artifacts => signing artifacts []
    | .error e => .rollback false e
  | .signDownloads artifact rest done => .calls (.generateDownloadUrl artifact.objectKey) fun
    | .ok url => signing rest (done++[(artifact.id,artifact.artifactType,url)])
    | .error e => .rollback false e
  | .readJob account id => .calls (.getJob id account) fun
    | .ok none => .rollback false .jobNotFound
    | .ok (some job) => .respond (.job (toResponse job))
    | .error e => .rollback false e
  | .respond response => .calls (.respond response) fun
    | .ok _ => .commit response
    | .error e => .rollback true e
  | .commit _ => .calls .commit fun
    | .ok _ => .close true none
    | .error e => .rollback true e
  | .rollback sent exc => .calls .rollback fun
    | .ok _ => .close sent (some exc)
    | .error e => .close sent (some e)
  | .close sent exc => .calls .close fun
    | .ok _ => leaveRequest sent exc
    | .error e => leaveRequest sent (some e)
  | .respondError exc => .calls (.respond (.error exc)) fun
    | .ok _ => .finished
    | .error e => .crashed e
  | .finished => .ended (.ok ())
  | .crashed e => .ended (.error e)

def startStage (account : AccountId) : Route → Stage
  | .createDocument => .mintDocument account
  | .processDocument documentId artifactTypes =>
    .findDocument ⟨account,documentId,artifactTypes⟩
  | .getDocument documentId => .readDocument account documentId
  | .listArtifacts documentId => .listDocument account documentId
  | .getJob jobId => .readJob account jobId

def enqueueRest (job : JobRow) : Code Response := do
  await (.enqueue (newJobPayload job))
  pure (.jobCreated (toResponse job))

def commitRest (job : JobRow) : Code Response := do
  await .commit
  enqueueRest job

def insertRest (dto : CreateJobDTO) : Code Response := do
  let job ← await (.createJob dto)
  commitRest job

def depthRest (threshold : ℕ) (dto : CreateJobDTO) : Code Response := do
  let depth ← await .queueDepth
  if threshold ≤ depth then .raise .backpressure else insertRest dto

def objectRest (threshold : ℕ) (dto : CreateJobDTO) (document : DocumentRow) : Code Response := do
  let uploaded ← await (.objectExists document.objectKey)
  if uploaded then depthRest threshold dto else .raise .documentNotUploaded

def findRest (threshold : ℕ) (dto : CreateJobDTO) : Code Response := do
  let document? ← await (.getDocument dto.documentId dto.accountId)
  match document? with
  | none => .raise .documentNotFound
  | some document => objectRest threshold dto document

def signRest (document : DocumentRow) : Code Response := do
  let uploadUrl ← await (.generateUploadUrl document.objectKey)
  pure (.documentCreated document.id uploadUrl)

def insertDocumentRest (account : AccountId) (id : Uuid) : Code Response := do
  let document ← await (.createDocument ⟨id,rawKey account id,account⟩)
  signRest document

def listRest (account : AccountId) (id : Uuid) : Code Response := do
  let artifacts ← await (.listArtifacts id account)
  signAll artifacts []

def stageCode (threshold : ℕ) : Stage → Code Unit
  | .mintDocument account => attempt (createDocument account) dispatch
  | .insertDocument account id => attempt (insertDocumentRest account id) dispatch
  | .signUpload document => attempt (signRest document) dispatch
  | .findDocument dto => attempt (findRest threshold dto) dispatch
  | .checkObject dto document => attempt (objectRest threshold dto document) dispatch
  | .checkDepth dto _ => attempt (depthRest threshold dto) dispatch
  | .insertJob dto _ => attempt (insertRest dto) dispatch
  | .commitJob job => attempt (commitRest job) dispatch
  | .enqueueJob job => attempt (enqueueRest job) dispatch
  | .readDocument account id => attempt (getDocument account id) dispatch
  | .listDocument account id => attempt (listArtifacts account id) dispatch
  | .listRows account id => attempt (listRest account id) dispatch
  | .signDownloads artifact rest done => attempt (signAll (artifact::rest) done) dispatch
  | .readJob account id => attempt (getJob account id) dispatch
  | .respond response => dispatch (.ok response)
  | .commit _ => committing ofExcept ()
  | .rollback true exc => rolling ofExcept exc
  | .rollback false exc => rolling answerError exc
  | .close true none => closing ofExcept (.ok ())
  | .close false none => closing answerError (.ok ())
  | .close true (some exc) => closing ofExcept (.error exc)
  | .close false (some exc) => closing answerError (.error exc)
  | .respondError exc => await (.respond (.error exc))
  | .finished => .ret ()
  | .crashed e => .raise e

theorem stageCode_signing (threshold : ℕ) (rows : List ArtifactRow)
    (done : List (Uuid × ArtifactType × Url)) :
    stageCode threshold (signing rows done) = attempt (signAll rows done) dispatch := by
  cases rows <;> rfl

/-- The named machine and the code of a request agree at every waiting point. -/
theorem stageCode_names (threshold : ℕ) : Names (stageCode threshold) (viewStage threshold) := by
  intro stage
  cases stage with
  | finished => rfl
  | crashed e => rfl
  | commit response =>
    refine congrArg (Prog.call _) (funext fun r => ?_)
    cases r <;> rfl
  | respond response =>
    change attempt (await _) _ = _
    rw [attempt_await]
    refine congrArg (Prog.call _) (funext fun r => ?_)
    cases r <;> rfl
  | respondError e =>
    refine congrArg (Prog.call _) (funext fun r => ?_)
    cases r <;> rfl
  | rollback sent e =>
    cases sent <;>
    · refine congrArg (Prog.call _) (funext fun r => ?_)
      cases r <;> rfl
  | close sent exc =>
    cases sent <;> cases exc <;>
    · refine congrArg (Prog.call _) (funext fun r => ?_)
      cases r <;> rfl
  | findDocument dto =>
    refine (attempt_await_andThen _ _ _).trans (congrArg (Prog.call _) (funext fun r => ?_))
    rcases r with e | _ | document <;> rfl
  | readDocument account id =>
    refine (attempt_await_andThen _ _ _).trans (congrArg (Prog.call _) (funext fun r => ?_))
    rcases r with e | _ | document <;> rfl
  | listDocument account id =>
    refine (attempt_await_andThen _ _ _).trans (congrArg (Prog.call _) (funext fun r => ?_))
    rcases r with e | _ | document <;> rfl
  | readJob account id =>
    refine (attempt_await_andThen _ _ _).trans (congrArg (Prog.call _) (funext fun r => ?_))
    rcases r with e | _ | document <;> rfl
  | checkObject dto document =>
    refine (attempt_await_andThen _ _ _).trans (congrArg (Prog.call _) (funext fun r => ?_))
    rcases r with e | _ | _ <;> rfl
  | checkDepth dto document =>
    refine (attempt_await_andThen _ _ _).trans (congrArg (Prog.call _) (funext fun r => ?_))
    rcases r with e | depth
    · rfl
    · by_cases h : threshold ≤ depth <;> simp only [h, if_true, if_false] <;> rfl
  | listRows account id =>
    refine (attempt_await_andThen _ _ _).trans (congrArg (Prog.call _) (funext fun r => ?_))
    rcases r with e | rows
    · rfl
    · exact (stageCode_signing threshold rows []).symm
  | signDownloads artifact rest done =>
    refine (attempt_await_andThen _ _ _).trans (congrArg (Prog.call _) (funext fun r => ?_))
    rcases r with e | url
    · rfl
    · exact (stageCode_signing threshold rest _).symm
  | _ =>
    refine (attempt_await_andThen _ _ _).trans (congrArg (Prog.call _) (funext fun r => ?_))
    cases r <;> rfl

theorem await_congr {α β : Type} (c : Call) {g : c.Resp → Code α} {g' : c.Resp → Code β}
    {f : Except Exc α → Code Unit} {f' : Except Exc β → Code Unit}
    (he : ∀ e, f (.error e) = f' (.error e)) (hk : ∀ a, attempt (g a) f = attempt (g' a) f') :
    attempt (await c >>= g) f = attempt (await c >>= g') f' := by
  rw [attempt_await_andThen, attempt_await_andThen]
  congr 1
  funext r
  cases r with
  | error e => exact he e
  | ok a => exact hk a

theorem processDocument_eq (threshold : ℕ) (dto : CreateJobDTO) :
    attempt (processDocument threshold dto) dispatch = attempt (findRest threshold dto) dispatch := by
  unfold processDocument
  rw [attempt_andThen]
  refine await_congr _ (fun _ => rfl) (fun document? => ?_)
  cases document? with
  | none => rfl
  | some document =>
    refine await_congr _ (fun _ => rfl) (fun uploaded => ?_)
    cases uploaded with
    | false => rfl
    | true =>
      refine await_congr _ (fun _ => rfl) (fun depth => ?_)
      by_cases h : threshold ≤ depth
      · simp only [h, if_true]
        rfl
      · simp only [h, if_false]
        refine await_congr _ (fun _ => rfl) (fun job => ?_)
        refine await_congr _ (fun _ => rfl) (fun _ => ?_)
        exact await_congr _ (fun _ => rfl) (fun _ => rfl)

/-- A request is the machine started on its route. -/
theorem request_code (threshold : ℕ) (account : AccountId) (route : Route) :
    request threshold account route = stageCode threshold (startStage account route) := by
  cases route with
  | processDocument documentId artifactTypes => exact processDocument_eq threshold _
  | _ => rfl

/-- The partial executions of a request are the walks of the named machine. -/
theorem request_follows_iff (threshold : ℕ) (account : AccountId) (route : Route)
    (as : Answers Call Call.Resp Exc) (q : Code Unit) :
    Follows (request threshold account route) as q ↔
      ∃ stage, Moves (viewStage threshold) (startStage account route) as stage ∧
        q = stageCode threshold stage := by
  rw [request_code]
  exact follows_iff _ _ (stageCode_names threshold) as (startStage account route) q

end DocPipeline.Routes
