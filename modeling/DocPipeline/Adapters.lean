import DocPipeline.Routes
import DocPipeline.Library.Executions

/-!
# The adapters over their libraries

One level below `Call`: what the S3 client, the repositories, the messaging
service and the session do with the methods of boto3, SQLAlchemy and aio_pika,
and which exception classes each `try` block translates. A request is run at
this level by replacing each of its calls by its adapter.
-/

set_option autoImplicit false

namespace DocPipeline.Adapters
open DocPipeline.Identifiers DocPipeline.Records DocPipeline.Database DocPipeline.Calls
open DocPipeline.Routes EffectProgram

/-- Exceptions of the libraries. `botoCoreError` stands for those that are no
`ClientError`, such as connection and timeout errors. -/
inductive LibraryError where
  | clientError (code : String)
  | botoCoreError (text : String)
  | integrityError (orig : String)
  | sqlalchemyError (text : String)
  | osError (text : String)
  | channelClosed
  | amqpError (text : String)
  deriving DecidableEq

namespace LibraryError

def isClientError : LibraryError → Bool
  | .clientError _ => true
  | _ => false

def isSQLAlchemyError : LibraryError → Bool
  | .integrityError _ | .sqlalchemyError _ => true
  | _ => false

def isAMQPError : LibraryError → Bool
  | .channelClosed | .amqpError _ => true
  | _ => false

def str : LibraryError → String
  | .clientError code => "An error occurred (" ++ code ++ ")"
  | .botoCoreError text | .integrityError text | .sqlalchemyError text => text
  | .osError text | .amqpError text => text
  | .channelClosed => "ChannelClosed"

end LibraryError

/-- Methods of the libraries. `execute` runs the statement of a repository
method, `connected` reads the stored broker connection, and `plain` stands for
the calls that have no adapter. -/
inductive LibCall where
  | execute (c : Call)
  | selectAccount (apiKey : String)
  | commit
  | rollback
  | close
  | presign (url : Url)
  | headObject (key : String)
  | getObject (key : String)
  | putObject (key : String) (content : Bytes)
  | connected
  | connectRobust
  | openChannel
  | closeChannel
  | declareQueue (passive : Bool)
  | publish (payload : Json)
  | plain (c : Call)

abbrev LibCall.Resp : LibCall → Type
  | .execute c => c.Resp
  | .selectAccount _ => Option AccountId
  | .presign _ => Url
  | .getObject _ => Bytes
  | .connected => Bool
  | .declareQueue _ => ℕ
  | .plain c => c.Resp
  | _ => Unit

inductive Thrown where
  | service (e : Exc)
  | library (x : LibraryError)
  | http (statusCode : ℕ) (detail : String)
  deriving DecidableEq

def Thrown.exc : Thrown → Exc
  | .service e => e
  | .library x => .other x.str
  | .http _ detail => .other detail

abbrev LibCode := Prog LibCall LibCall.Resp Thrown

def invoke (c : LibCall) : LibCode c.Resp := perform c

section Blocks
variable {α : Type}

def catching (caught : LibraryError → Bool) (e : Exc) (body : LibCode α) : LibCode α :=
  tryExcept body fun
    | .library x => if caught x then .raise (.service e) else .raise (.library x)
    | t => .raise t

def withChannel (body : LibCode α) : LibCode α := do
  invoke .openChannel
  withFinally body (invoke .closeChannel)

def openSession (block : LibCode α) : LibCode α :=
  withFinally
    (tryExcept (do let a ← block; invoke .commit; pure a)
      (fun t => do invoke .rollback; .raise t))
    (invoke .close)

end Blocks

def repository (c : Call) : LibCode c.Resp :=
  catching LibraryError.isSQLAlchemyError .database (invoke (.execute c))

def namesIndex (orig : String) : Bool :=
  decide ("one_active_job_per_document".toList <:+: orig.toList)

def createJob (dto : CreateJobDTO) : LibCode JobRow :=
  tryExcept (invoke (.execute (.createJob dto))) fun
    | .library (.integrityError orig) =>
      if namesIndex orig then .raise (.service .activeJobExists) else .raise (.service .database)
    | .library x =>
      if x.isSQLAlchemyError then .raise (.service .database) else .raise (.library x)
    | t => .raise t

def getAccount (apiKey : String) : LibCode (Option AccountId) :=
  catching LibraryError.isSQLAlchemyError .database (invoke (.selectAccount apiKey))

def presigned (url : Url) : LibCode Url :=
  catching LibraryError.isClientError .storage (invoke (.presign url))

def objectExists (key : String) : LibCode Bool :=
  attempt (invoke (.headObject key)) fun
    | .ok _ => pure true
    | .error (.library (.clientError code)) =>
      if code = "404" then pure false else .raise (.service .storage)
    | .error t => .raise t

def getObject (key : String) : LibCode Bytes :=
  catching LibraryError.isClientError .storage (invoke (.getObject key))

def putObject (key : String) (content : Bytes) : LibCode Unit :=
  catching LibraryError.isClientError .storage (invoke (.putObject key content))

def getConnection : LibCode Unit := do
  let connected ← invoke .connected
  if connected then pure () else invoke .connectRobust

def enqueue (payload : Json) : LibCode Unit :=
  catching LibraryError.isAMQPError .queue do
    getConnection
    withChannel do
      let _ ← invoke (.declareQueue false)
      invoke (.publish payload)

/-- The passive declaration of `queue_depth`; the broker closes the channel if
there is no such queue. -/
def declaredCount : LibCode ℕ :=
  tryExcept (invoke (.declareQueue true)) fun
    | .library .channelClosed => pure 0
    | t => .raise t

def queueDepth : LibCode ℕ :=
  catching LibraryError.isAMQPError .queue do
    getConnection
    withChannel declaredCount

def adapter : (c : Call) → LibCode c.Resp
  | .createJob dto => createJob dto
  | .getForProcessing jobId => repository (.getForProcessing jobId)
  | .updateStatus jobId status expected err => repository (.updateStatus jobId status expected err)
  | .getJob jobId accountId => repository (.getJob jobId accountId)
  | .createDocument dto => repository (.createDocument dto)
  | .getDocument documentId accountId => repository (.getDocument documentId accountId)
  | .createArtifact dto => repository (.createArtifact dto)
  | .listArtifacts documentId accountId => repository (.listArtifacts documentId accountId)
  | .commit => invoke .commit
  | .rollback => invoke .rollback
  | .close => invoke .close
  | .objectExists key => objectExists key
  | .getObject key => getObject key
  | .putObject key content => putObject key content
  | .generateUploadUrl key => presigned (.put key)
  | .generateDownloadUrl key => presigned (.get key)
  | .enqueue payload => enqueue payload
  | .queueDepth => queueDepth
  | .parse content => invoke (.plain (.parse content))
  | .ack => invoke (.plain .ack)
  | .nack => invoke (.plain .nack)
  | .uuid4 => invoke (.plain .uuid4)
  | .respond response => invoke (.plain (.respond response))

def interpret {α : Type} : Code α → LibCode α
  | .ret a => .ret a
  | .raise e => .raise (.service e)
  | .call c k => attempt (adapter c) fun r => interpret (k (r.mapError Thrown.exc))

def authenticate (apiKey : String) : LibCode AccountId := do
  let account? ← getAccount apiKey
  match account? with
  | none => .raise (.http 401 "Invalid API key")
  | some account => pure account

/-- A route with its dependencies: the header, the session and the account.
The result is what leaves the session, a response or the exception that
reaches the application's handlers. A response is sent before the session is
left: an exception of the exit commit is one that nobody is answered with. -/
def serveRequest (threshold : ℕ) (apiKey : Option String) (route : Route) : LibCode Response :=
  match apiKey.filter (fun key => key ≠ "") with
  | none => .raise (.http 401 "Missing X-API-KEY header")
  | some key => openSession do
    let account ← authenticate key
    interpret (handler threshold account route)

def appException : Exc → Option (ℕ × String)
  | .documentNotFound => some (404,"DocumentNotFoundException")
  | .documentNotUploaded => some (409,"DocumentNotUploadedException")
  | .jobNotFound => some (404,"JobNotFoundException")
  | .backpressure => some (429,"BackpressureException")
  | .activeJobExists => some (409,"ActiveJobExistsException")
  | .storage => some (503,"StorageException")
  | .queue => some (503,"QueueException")
  | .database => some (503,"DatabaseException")
  | .jobStateConflict => some (409,"JobStateConflictException")
  | .other _ => none

/-- What the application answers to an exception, unless it has sent a response
already. -/
inductive ErrorAnswer where
  | envelope (statusCode : ℕ) (type message : String)
  | bare500
  deriving DecidableEq

def answerTo : Thrown → ErrorAnswer
  | .service e => match appException e with
    | some (statusCode,type) => .envelope statusCode type e.str
    | none => .bare500
  | .library _ => .bare500
  | .http statusCode detail => .envelope statusCode "HTTPException" detail

end DocPipeline.Adapters
