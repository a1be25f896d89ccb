import DocPipeline.Consumer

/-!
# The named waiting points are those of the handler

`code` gives the rest of the handler at each waiting point. It unfolds into
`view` at every one of them, and at the start it is the handler itself.
-/

set_option autoImplicit false

namespace DocPipeline.HandlerMachine
open DocPipeline.Identifiers DocPipeline.Records DocPipeline.Database DocPipeline.Calls
open DocPipeline.Consumer EffectProgram

section Sessions
variable {α β : Type}

def closing (k : Except Exc α → Code β) (r : Except Exc α) : Code β :=
  .call .close fun
    | .ok _ => k r
    | .error e => k (.error e)

def rolling (k : Except Exc α → Code β) (e : Exc) : Code β :=
  .call .rollback fun
    | .ok _ => closing k (.error e)
    | .error e' => closing k (.error e')

def committing (k : Except Exc α → Code β) (a : α) : Code β :=
  .call .commit fun
    | .ok _ => closing k (.ok a)
    | .error e => rolling k e

theorem attempt_await (c : Call) (f : Except Exc c.Resp → Code β) :
    attempt (await c) f = .call c f := by
  unfold await perform attempt
  congr 1
  funext r
  cases r <;> rfl

theorem attempt_tryExcept (p : Code α) (h : Exc → Code α) (f : Except Exc α → Code β) :
    attempt (tryExcept p h) f = attempt p (fun
      | .ok a => f (.ok a)
      | .error e => attempt (h e) f) := by
  rw [tryExcept, attempt_assoc]
  congr 1
  funext r
  cases r <;> rfl

theorem attempt_andThen {γ : Type} (p : Code α) (g : α → Code β) (f : Except Exc β → Code γ) :
    attempt (p >>= g) f = attempt p (fun
      | .ok a => attempt (g a) f
      | .error e => f (.error e)) := by
  rw [bind_eq, andThen, attempt_assoc]
  congr 1
  funext r
  cases r <;> rfl

theorem attempt_await_andThen {γ : Type} (c : Call) (g : c.Resp → Code β)
    (f : Except Exc β → Code γ) :
    attempt (await c >>= g) f = .call c (fun
      | .ok a => attempt (g a) f
      | .error e => f (.error e)) := by
  rw [attempt_andThen, attempt_await]
  congr 1
  funext r
  cases r <;> rfl

theorem closing_eq (k : Except Exc α → Code β) (r : Except Exc α) :
    attempt (andThen (await .close) fun _ => ofExcept r) k = closing k r := by
  rw [← bind_eq, attempt_await_andThen]
  unfold closing
  congr 1
  funext x
  cases x with
  | error e => rfl
  | ok a => cases r <;> rfl

/-- Leaving a session commits after a normal end and rolls back after an
exception, and in both cases closes. -/
theorem attempt_openSession (block : Code α) (k : Except Exc α → Code β) :
    attempt (openSession block) k = attempt block (fun
      | .ok a => committing k a
      | .error e => rolling k e) := by
  have hr : ∀ e, attempt (attempt (await .rollback >>= fun _ => (.raise e : Code α))
      fun r => andThen (await .close) fun _ => ofExcept r) k = rolling k e := by
    intro e
    rw [attempt_assoc, attempt_await_andThen]
    unfold rolling
    congr 1
    funext x
    cases x with
    | error e' => exact closing_eq k (.error e')
    | ok a => exact closing_eq k (.error e)
  rw [openSession, withFinally, attempt_tryExcept, attempt_assoc, attempt_andThen]
  congr 1
  funext r
  cases r with
  | error e => exact hr e
  | ok a =>
    dsimp only
    rw [attempt_await_andThen]
    unfold committing
    congr 1
    funext x
    cases x with
    | error e => exact hr e
    | ok u => exact closing_eq k (.ok a)

end Sessions

def ackFailure : Code Unit := .call .ack ofExcept

def caught : Exc → Code Unit
  | .jobStateConflict => ackFailure
  | e => .raise e

def enqueueRetry (job : Uuid) : Code Unit :=
  .call (.enqueue (retryPayload job)) fun
    | .ok _ => ackFailure
    | .error .queue => ackFailure
    | .error e => caught e

def afterRequeue (job : Uuid) : Except Exc Unit → Code Unit
  | .ok _ => enqueueRetry job
  | .error e => caught e

def afterFail : Except Exc Unit → Code Unit
  | .ok _ => ackFailure
  | .error e => caught e

def updating (job : Uuid) (status : JobStatus) (exc : Exc) (k : Except Exc Unit → Code Unit) :
    Code Unit :=
  .call (.updateStatus job status .started (some exc.str)) fun
    | .ok _ => committing k ()
    | .error e => rolling k e

def failing (job : Uuid) (started : JobRow) (exc : Exc) : Code Unit :=
  if started.attempts < started.maxAttempts then updating job .queued exc (afterRequeue job)
  else updating job .failed exc afterFail

def ackSuccess (job : Uuid) (started : JobRow) : Code Unit :=
  .call .ack fun
    | .ok _ => .ret ()
    | .error e => failing job started e

def afterProcess (job : Uuid) (started : JobRow) : Except Exc Unit → Code Unit
  | .ok _ => ackSuccess job started
  | .error e => failing job started e

def completing (job : Uuid) (started : JobRow) : Code Unit :=
  .call (.updateStatus job .completed .started none) fun
    | .ok _ => committing (afterProcess job started) ()
    | .error e => rolling (afterProcess job started) e

def recording (job : Uuid) (started row : JobRow) (document : DocumentRow) : Code Unit :=
  .call (.createArtifact ⟨job,row.documentId,.markdown,artifactKey row.accountId document.id⟩) fun
    | .ok _ => completing job started
    | .error e => rolling (afterProcess job started) e

def putting (job : Uuid) (started row : JobRow) (document : DocumentRow) (markdown : String) :
    Code Unit :=
  .call (.putObject (artifactKey row.accountId document.id) markdown.toUTF8) fun
    | .ok _ => recording job started row document
    | .error e => rolling (afterProcess job started) e

def parsing (job : Uuid) (started row : JobRow) (document : DocumentRow) (content : Bytes) :
    Code Unit :=
  .call (.parse content) fun
    | .ok markdown => putting job started row document markdown
    | .error e => rolling (afterProcess job started) e

def fetching (job : Uuid) (started row : JobRow) (document : DocumentRow) : Code Unit :=
  .call (.getObject document.objectKey) fun
    | .ok content => parsing job started row document content
    | .error e => rolling (afterProcess job started) e

def finding (job : Uuid) (started row : JobRow) : Code Unit :=
  .call (.getDocument row.documentId row.accountId) fun
    | .ok none => rolling (afterProcess job started) .documentNotFound
    | .ok (some document) => fetching job started row document
    | .error e => rolling (afterProcess job started) e

def processing (job : Uuid) (started : JobRow) : Code Unit :=
  .call (.getForProcessing job) fun
    | .ok none => rolling (afterProcess job started) .jobNotFound
    | .ok (some row) => finding job started row
    | .error e => rolling (afterProcess job started) e

def acking : Code Unit :=
  .call .ack fun
    | .ok _ => committing ofExcept ()
    | .error e => rolling ofExcept e

def nacking : Code Unit :=
  .call .nack fun
    | .ok _ => committing ofExcept ()
    | .error e => rolling ofExcept e

def claiming (job : Uuid) : Code Unit :=
  .call (.updateStatus job .started .queued none) fun
    | .ok started => committing (fun
      | .ok _ => processing job started
      | .error e => .raise e) ()
    | .error .jobStateConflict => acking
    | .error .database => nacking
    | .error e => rolling ofExcept e

def afterLookup (job : Uuid) : Except Exc Unit → Code Unit
  | .ok _ => claiming job
  | .error e => .raise e

def looking (job : Uuid) : Code Unit :=
  .call (.getForProcessing job) fun
    | .ok none => acking
    | .ok (some row) =>
      if row.status = .queued then committing (afterLookup job) () else acking
    | .error e => rolling (afterLookup job) e

def afterSite : Site → Except Exc Unit → Code Unit
  | .dropping => ofExcept
  | .looked job => afterLookup job
  | .claiming => ofExcept
  | .claimed job started => fun
    | .ok _ => processing job started
    | .error e => .raise e
  | .processed job started => afterProcess job started
  | .requeued job _ => afterRequeue job
  | .failed _ _ => afterFail

def code : Phase → Code Unit
  | .ackPoison => await .ack
  | .lookup job => looking job
  | .ackDrop => acking
  | .claim job => claiming job
  | .nack => nacking
  | .processJob job started => processing job started
  | .processDocument job started row => finding job started row
  | .processFetch job started row document => fetching job started row document
  | .processParse job started row document content => parsing job started row document content
  | .processPut job started row document markdown => putting job started row document markdown
  | .processArtifact job started row document _ => recording job started row document
  | .processComplete job started _ _ _ => completing job started
  | .ackSuccess job started => ackSuccess job started
  | .requeue job _ exc => updating job .queued exc (afterRequeue job)
  | .fail job _ exc => updating job .failed exc afterFail
  | .enqueue job _ => enqueueRetry job
  | .ackFailure => ackFailure
  | .commit site => committing (afterSite site) ()
  | .rollback site exc => rolling (afterSite site) exc
  | .close site none => closing (afterSite site) (.ok ())
  | .close site (some exc) => closing (afterSite site) (.error exc)
  | .returned => .ret ()
  | .raised _ e => .raise e

theorem code_onFailure (job : Uuid) (started : JobRow) (exc : Exc) :
    code (onFailure job started exc) = failing job started exc := by
  unfold onFailure failing
  split <;> rfl

theorem code_leave (site : Site) (r : Except Exc Unit) :
    code (leave site (match r with | .ok _ => none | .error e => some e)) = afterSite site r := by
  cases site <;> rcases r with e | u <;> first | rfl | exact code_onFailure _ _ _ | (cases e <;> rfl)

/-- The named machine and the code agree at every waiting point. -/
theorem code_names : Names code view := by
  intro p
  cases p with
  | close site exc =>
    cases exc with
    | none =>
      refine congrArg (Prog.call Call.close) (funext fun r => ?_)
      rcases r with e | u
      · exact (code_leave site (.error e)).symm
      · exact (code_leave site (.ok ())).symm
    | some exc =>
      refine congrArg (Prog.call Call.close) (funext fun r => ?_)
      rcases r with e | u
      · exact (code_leave site (.error e)).symm
      · exact (code_leave site (.error exc)).symm
  | ackPoison =>
    refine congrArg (Prog.call Call.ack) (funext fun r => ?_)
    cases r <;> rfl
  | returned => rfl
  | raised d e => rfl
  | lookup job =>
    refine congrArg (Prog.call _) (funext fun r => ?_)
    rcases r with e | _ | row
    · rfl
    · rfl
    · dsimp only
      split <;> rfl
  | claim job =>
    refine congrArg (Prog.call _) (funext fun r => ?_)
    rcases r with e | started
    · cases e <;> rfl
    · rfl
  | ackSuccess job started =>
    refine congrArg (Prog.call _) (funext fun r => ?_)
    rcases r with e | u
    · exact (code_onFailure job started e).symm
    · rfl
  | enqueue job started =>
    refine congrArg (Prog.call _) (funext fun r => ?_)
    rcases r with e | u
    · cases e <;> rfl
    · rfl
  | processJob job started =>
    refine congrArg (Prog.call _) (funext fun r => ?_)
    rcases r with e | _ | row <;> rfl
  | processDocument job started row =>
    refine congrArg (Prog.call _) (funext fun r => ?_)
    rcases r with e | _ | document <;> rfl
  | _ =>
    refine congrArg (Prog.call _) (funext fun r => ?_)
    cases r <;> rfl

section Agreement
variable {α : Type}

theorem rolling_congr (k : Except Exc α → Code Unit) (k' : Except Exc Unit → Code Unit) (e : Exc)
    (he : ∀ e, k (.error e) = k' (.error e)) : rolling k e = rolling k' e := by
  simp only [rolling, closing, he]

theorem committing_congr (k : Except Exc α → Code Unit) (k' : Except Exc Unit → Code Unit) (a : α)
    (ha : k (.ok a) = k' (.ok ())) (he : ∀ e, k (.error e) = k' (.error e)) :
    committing k a = committing k' () := by
  simp only [committing, rolling, closing, ha, he]

end Agreement

theorem handleFailure_code (job : Uuid) (started : JobRow) (exc : Exc) :
    (handleFailure job started.attempts started.maxAttempts exc >>= fun _ => await .ack) =
      failing job started exc := by
  rw [bind_eq, andThen, handleFailure, attempt_tryExcept]
  unfold failing
  split
  · rw [attempt_andThen, attempt_openSession, attempt_await_andThen]
    unfold updating
    congr 1
    funext r
    rcases r with e | u
    · apply rolling_congr
      intro e
      cases e <;> rfl
    · apply committing_congr
      · dsimp only
        rw [attempt_tryExcept, attempt_await]
        unfold afterRequeue enqueueRetry
        congr 1
        funext r
        rcases r with e | u
        · cases e <;> rfl
        · rfl
      · intro e
        cases e <;> rfl
  · rw [attempt_openSession, attempt_await_andThen]
    unfold updating
    congr 1
    funext r
    rcases r with e | u
    · apply rolling_congr
      intro e
      cases e <;> rfl
    · apply committing_congr
      · rfl
      · intro e
        cases e <;> rfl

theorem process_code (job : Uuid) (started : JobRow) (k : Except Exc Unit → Code Unit)
    (hk : ∀ r, k r = afterProcess job started r) :
    attempt (openSession (process job)) k = processing job started := by
  obtain rfl : k = afterProcess job started := funext hk
  rw [attempt_openSession, process, attempt_await_andThen]
  unfold processing
  congr 1
  funext r
  rcases r with e | _ | row
  · rfl
  · rfl
  dsimp only
  rw [attempt_await_andThen]
  unfold finding
  congr 1
  funext r
  rcases r with e | _ | document
  · rfl
  · rfl
  dsimp only
  rw [attempt_await_andThen]
  unfold fetching
  congr 1
  funext r
  rcases r with e | content
  · rfl
  dsimp only
  rw [attempt_await_andThen]
  unfold parsing
  congr 1
  funext r
  rcases r with e | markdown
  · rfl
  dsimp only
  rw [attempt_await_andThen]
  unfold putting
  congr 1
  funext r
  rcases r with e | u
  · rfl
  dsimp only
  rw [attempt_await_andThen]
  unfold recording
  congr 1
  funext r
  rcases r with e | artifact
  · rfl
  dsimp only
  rw [attempt_await_andThen]
  unfold completing
  congr 1
  funext r
  rcases r with e | row' <;> rfl

theorem tail_code (job : Uuid) (started : JobRow) :
    tryExcept (do openSession (process job); await .ack) (fun e => do
      handleFailure job started.attempts started.maxAttempts e
      await .ack) = processing job started := by
  rw [tryExcept, attempt_andThen]
  apply process_code
  intro r
  rcases r with e | u
  · exact handleFailure_code job started e
  · dsimp only
    rw [attempt_await]
    unfold afterProcess ackSuccess
    congr 1
    funext r
    rcases r with e | u
    · exact handleFailure_code job started e
    · rfl

theorem acking_code {α : Type} (a : α) (k : Except Exc α → Code Unit) (ha : k (.ok a) = .ret ())
    (he : ∀ e, k (.error e) = .raise e) :
    attempt (await .ack >>= fun _ => (pure a : Code α)) (fun
      | .ok a => committing k a
      | .error e => rolling k e) = acking := by
  rw [attempt_await_andThen]
  unfold acking
  congr 1
  funext r
  rcases r with e | u
  · exact rolling_congr _ _ _ he
  · exact committing_congr _ _ _ ha he

theorem nacking_code {α : Type} (a : α) (k : Except Exc α → Code Unit) (ha : k (.ok a) = .ret ())
    (he : ∀ e, k (.error e) = .raise e) :
    attempt (await .nack >>= fun _ => (pure a : Code α)) (fun
      | .ok a => committing k a
      | .error e => rolling k e) = nacking := by
  rw [attempt_await_andThen]
  unfold nacking
  congr 1
  funext r
  rcases r with e | u
  · exact rolling_congr _ _ _ he
  · exact committing_congr _ _ _ ha he

/-- The claiming half of the handler, with what follows the claim abstracted. -/
theorem claim_code (job : Uuid) (k : Except Exc (Option JobRow) → Code Unit)
    (hs : ∀ started, k (.ok (some started)) = processing job started)
    (hn : k (.ok none) = .ret ()) (he : ∀ e, k (.error e) = .raise e) :
    attempt (openSession (claimBlock job)) k = claiming job := by
  rw [attempt_openSession, claimBlock, attempt_assoc, attempt_await]
  unfold claiming
  congr 1
  funext r
  rcases r with e | started
  · cases e with
    | jobStateConflict => exact acking_code none k hn he
    | database => exact nacking_code none k hn he
    | _ => exact rolling_congr _ _ _ he
  · exact committing_congr _ _ _ (hs started) he

/-- The handler is the machine started on the decoded message. -/
theorem handle_code (body : Body) : handle body = code (start body) := by
  unfold handle start
  cases decode body with
  | escapes e => rfl
  | poison => rfl
  | job jobId =>
    change _ = looking jobId
    dsimp only
    rw [bind_eq, andThen, attempt_openSession, lookupBlock, attempt_await_andThen]
    unfold looking
    congr 1
    funext r
    rcases r with e | _ | row
    · apply rolling_congr
      intro e
      rfl
    · apply acking_code
      · rfl
      · intro e
        rfl
    · dsimp only
      split
      · apply committing_congr
        · apply claim_code
          · exact tail_code jobId
          · rfl
          · intro e
            rfl
        · intro e
          rfl
      · apply acking_code
        · rfl
        · intro e
          rfl

/-- The partial executions of the handler are the walks of the named machine. -/
theorem handle_follows_iff (body : Body) (as : Answers Call Call.Resp Exc) (q : Code Unit) :
    Follows (handle body) as q ↔ ∃ p, Moves view (start body) as p ∧ q = code p := by
  rw [handle_code]
  exact follows_iff code view code_names as (start body) q

end DocPipeline.HandlerMachine
