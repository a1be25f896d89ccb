import DocPipeline.Routes
import DocPipeline.Library.Runs

/-!
# The whole system

Any number of API requests and workers share one database, one queue and one
object store. A step is one call of one of them, a move of the broker or of
a client, or the death of a process; which step comes next, and how each
call ends, is left open.
-/

set_option autoImplicit false

namespace DocPipeline.System
open DocPipeline.Identifiers DocPipeline.Records DocPipeline.Database DocPipeline.Calls
open DocPipeline.Consumer DocPipeline.Routes EffectProgram LabelledRuns

/-- A worker process between and during runs of its message handler. -/
inductive Worker where
  | idle
  | received (m : Message)
  | handling (m : Message) (p : Phase)
  | dead

structure Request where
  account : AccountId
  stage : Stage

structure State where
  world : World
  workers : ℕ → Worker
  requests : ℕ → Option Request

def init : State where
  world := ⟨.empty,[],fun _ => none,[],fun _ => none,[],fun _ => none,[]⟩
  workers := fun _ => .idle
  requests := fun _ => none

/-- `deliver` and `duplicate` name a ready message by its position. `lose`
returns the unsettled message of a worker that is alive, and `abort` ends a
request at any point. -/
inductive Label where
  | deliver (w i : ℕ)
  | begin (w : ℕ)
  | call (w : ℕ) (o : Oracle) (out : Outcome)
  | loop (w : ℕ)
  | stop (w : ℕ)
  | die (w : ℕ)
  | lose (w : ℕ)
  | duplicate (i : ℕ)
  | inject (body : Body)
  | arrive (r : ℕ) (account : AccountId) (route : Route)
  | serve (r : ℕ) (o : Oracle) (out : Outcome)
  | abort (r : ℕ)
  | receive (r : ℕ)
  | upload (account : AccountId) (key : String) (content : Bytes)

def entered : Phase → List Event
  | .processJob job started => [.processCalled job started.attempts]
  | .requeue job started exc => [.failureHandled job started.attempts exc.str]
  | .fail job started exc => [.failureHandled job started.attempts exc.str]
  | _ => []

def performed : Phase → List Event
  | .processPut job started _ _ markdown => [.put job started.attempts markdown.toUTF8]
  | .enqueue job started => [.published job started.attempts]
  | _ => []

def performedStage : Stage → List Event
  | .enqueueJob job => [.published job.id 0]
  | _ => []

def Outcome.took : Outcome → Bool
  | .ok => true
  | .raises _ => false
  | .raisesAfter _ => true

def World.record (σ : World) (es : List Event) : World := { σ with history := es ++ σ.history }

def handed (history : List Event) (a : AccountId) (url : Url) : Bool :=
  history.any fun
    | .received account response => account = a && response.urls.contains url
    | _ => false

def State.setWorker (s : State) (w : ℕ) (x : Worker) : State :=
  { s with workers := Function.update s.workers w x }

def State.setStage (s : State) (r : ℕ) (account : AccountId) (stage : Stage) : State :=
  { s with requests := Function.update s.requests r (some ⟨account,stage⟩) }

/-- A worker process ends: its transaction is rolled back and its unsettled
message becomes ready again. -/
def State.endWorker (s : State) (w : ℕ) : State :=
  { s.setWorker w .dead with world := (s.world.discard (.worker w)).requeue (.worker w) }

def callStep (s : State) (w : ℕ) (o : Oracle) (out : Outcome) : Option State :=
  match s.workers w with
  | .handling m p => match view p with
    | .calls c k => (exec s.world (.worker w) o c out).map fun x =>
      { s.setWorker w (.handling m (k x.1)) with
        world := World.record x.2
          (entered (k x.1) ++ if Outcome.took out then performed p else []) }
    | .ended _ => none
  | _ => none

def serveStep (threshold : ℕ) (s : State) (r : ℕ) (o : Oracle) (out : Outcome) : Option State :=
  match s.requests r with
  | some q => match viewStage threshold q.stage with
    | .calls c k => (exec s.world (.request r) o c out).map fun x =>
      { s.setStage r q.account (k x.1) with
        world := World.record x.2 (if Outcome.took out then performedStage q.stage else []) }
    | .ended _ => none
  | none => none

def step (threshold : ℕ) (s : State) : Label → Option State
  | .deliver w i => match s.workers w, s.world.unsettled w, s.world.ready[i]? with
    | .idle, none, some m => some { s.setWorker w (.received m) with
        world := { s.world with
          ready := s.world.ready.eraseIdx i
          unsettled := Function.update s.world.unsettled w (some m) } }
    | _, _, _ => none
  | .begin w => match s.workers w with
    | .received m => some (s.setWorker w (.handling m (start m.body)))
    | _ => none
  | .call w o out => callStep s w o out
  | .loop w => match s.workers w with
    | .handling _ .returned => some (s.setWorker w .idle)
    | _ => none
  | .stop w => match s.workers w with
    | .idle => some (s.endWorker w)
    | .received _ => some (s.endWorker w)
    | _ => none
  | .die w => match s.workers w with
    | .dead => none
    | _ => some (s.endWorker w)
  | .lose w => match s.workers w, s.world.unsettled w with
    | .dead, _ => none
    | _, some _ => some { s with world := s.world.requeue (.worker w) }
    | _, none => none
  | .duplicate i => match s.world.ready[i]? with
    | some m => some { s with world := { s.world with ready := m::s.world.ready } }
    | none => none
  | .inject body =>
    some { s with world := { s.world with ready := ⟨body,.outside⟩::s.world.ready } }
  | .arrive r account route => match s.requests r with
    | none => some (s.setStage r account (startStage account route))
    | some _ => none
  | .serve r o out => serveStep threshold s r o out
  | .abort r => match s.requests r with
    | some q => some { s.setStage r q.account (.crashed (.other "aborted")) with
        world := s.world.discard (.request r) }
    | none => none
  | .receive r => match s.requests r, s.world.wire r with
    | some q, some response => some { s with world := { s.world with
        wire := Function.update s.world.wire r none
        history := .received q.account response::s.world.history } }
    | _, _ => none
  | .upload account key content =>
    if handed s.world.history account (.put key) then
      some { s with world := { s.world with
        objects := Function.update s.world.objects key (some content) } }
    else none

end DocPipeline.System
