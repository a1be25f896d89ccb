import DocPipeline.Answers

/-!
# The open transaction at every waiting point

Which statements a worker or a request has issued and not yet committed is
determined by its waiting point. Only eight waiting points have any.
-/

set_option autoImplicit false

namespace DocPipeline.Transactions
open DocPipeline.Identifiers DocPipeline.Records DocPipeline.Database DocPipeline.Calls
open DocPipeline.Consumer DocPipeline.Routes DocPipeline.System DocPipeline.Effects
open DocPipeline.Moves DocPipeline.Answers LabelledRuns EffectProgram

def Released (job : Uuid) (status : JobStatus) (old new : JobRow) : Prop :=
  old.id = job ∧ old.status = .started ∧
    ∃ text now again, new = updated status (some text) now again old

def opened : Phase → List Write → Prop
  | .commit (.claimed job started), ws => ∃ old, ws = [.updateJob old started] ∧
      ∃ now again, old.id = job ∧ old.status = .queued ∧
        started = updated .started none now again old
  | .processComplete _ _ _ _ _, ws => ∃ a, ws = [.upsertArtifact a]
  | .commit (.processed job _), ws => ∃ a old new,
      ws = [.upsertArtifact a,.updateJob old new] ∧
        ∃ now again, old.id = job ∧ old.status = .started ∧
          new = updated .completed none now again old
  | .commit (.requeued job _), ws => ∃ old new, ws = [.updateJob old new] ∧
      Released job .queued old new
  | .commit (.failed job _), ws => ∃ old new, ws = [.updateJob old new] ∧
      Released job .failed old new
  | .rollback _ _, _ => True
  | _, ws => ws = []

def openedWorker : Worker → List Write → Prop
  | .handling _ p, ws => opened p ws
  | _, ws => ws = []

def Uploadable (account : AccountId) (row : DocumentRow) : Prop :=
  row.accountId = account ∧ row.objectKey = rawKey account row.id

def openedStage (account : AccountId) : Stage → List Write → Prop
  | .mintDocument a, ws => ws = [] ∧ a = account
  | .insertDocument a _, ws => ws = [] ∧ a = account
  | .signUpload document, ws => ws = [.insertDocument document] ∧ Uploadable account document
  | .findDocument dto, ws => ws = [] ∧ dto.accountId = account
  | .checkObject dto _, ws => ws = [] ∧ dto.accountId = account
  | .checkDepth dto _, ws => ws = [] ∧ dto.accountId = account
  | .insertJob dto _, ws => ws = [] ∧ dto.accountId = account
  | .commitJob job, ws => ws = [.insertJob job] ∧ job.accountId = account ∧
      ∃ dto id m now again, job = newJob dto id m now again
  | .enqueueJob job, ws => ws = [] ∧ job.accountId = account
  | .readDocument a _, ws => ws = [] ∧ a = account
  | .listDocument a _, ws => ws = [] ∧ a = account
  | .listRows a _, ws => ws = [] ∧ a = account
  | .readJob a _, ws => ws = [] ∧ a = account
  | .respond (.documentCreated id url), ws => ∃ row, ws = [.insertDocument row] ∧
      Uploadable account row ∧ row.id = id ∧ url = .put row.objectKey
  | .commit (.documentCreated id url), ws => ∃ row, ws = [.insertDocument row] ∧
      Uploadable account row ∧ row.id = id ∧ url = .put row.objectKey
  | .rollback _ _, _ => True
  | _, ws => ws = []

def openedRequest : Option Request → List Write → Prop
  | some q, ws => openedStage q.account q.stage ws
  | none, ws => ws = []

structure Opened (s : State) : Prop where
  workers : ∀ w, openedWorker (s.workers w) (s.world.writesOf (.worker w))
  requests : ∀ r, openedRequest (s.requests r) (s.world.writesOf (.request r))

section Calls
variable {σ σ' : World} {p : Proc} {o : Oracle} {out : Outcome} {c : Call}
  {r : Except Exc c.Resp}

def writes : Call → Bool
  | .updateStatus _ _ _ _ | .createJob _ | .createDocument _ | .createArtifact _ => true
  | _ => false

theorem writesOf_discard_self : (σ.discard p).writesOf p = [] := by
  rw [writesOf_discard, if_pos rfl]

theorem writesOf_addWrite_self (w : Write) :
    (σ.addWrite p w).writesOf p = σ.writesOf p ++ [w] := by
  rw [writesOf_addWrite, if_pos rfl]

theorem writesOf_minted_self (w : Write) (ids : List Uuid) :
    World.writesOf { σ.addWrite p w with minted := ids } p = σ.writesOf p ++ [w] :=
  writesOf_addWrite_self w

/-- Calls that issue no statement leave the transaction open or end it. -/
theorem writesOf_self (he : exec σ p o c out = some (r,σ')) (hc : writes c = false) :
    σ'.writesOf p = σ.writesOf p ∨ σ'.writesOf p = [] := by
  have he := exec_effect he
  cases he with
  | same => exact Or.inl rfl
  | discard => exact Or.inr writesOf_discard_self
  | commit => exact Or.inr writesOf_discard_self
  | ack => exact Or.inl (writesOf_congr (settle_inflight σ p) p)
  | nack => exact Or.inl (writesOf_congr (requeue_inflight σ p) p)
  | respond => exact Or.inl (writesOf_congr (send_inflight σ p _) p)
  | putObject => exact Or.inl (writesOf_congr rfl p)
  | enqueue => exact Or.inl (writesOf_congr rfl p)
  | uuid4 => exact Or.inl (writesOf_congr rfl p)
  | _ => cases hc

theorem writesOf_nil (he : exec σ p o c out = some (r,σ')) (hc : writes c = false)
    (h : σ.writesOf p = []) : σ'.writesOf p = [] := by
  rcases writesOf_self he hc with hs | hs
  · rw [hs, h]
  · exact hs

/-- An `update_status` that returns is the first statement of its session. -/
theorem writesOf_updateStatus {job : Uuid} {status expected : JobStatus} {err : Option String}
    {row : JobRow} (h : σ.writesOf p = [])
    (he : exec σ p o (.updateStatus job status expected err) out = some (.ok row,σ')) :
    ∃ old now again, σ'.writesOf p = [.updateJob old row] ∧ old.id = job ∧
      old.status = expected ∧ row = updated status err now again old := by
  rcases exec_updateStatus he with ⟨old,now,again,-,hr,-,hrow,hst,rfl⟩ | ⟨-,hr,-⟩ | ⟨f,-,hr,-⟩
  · cases hr
    refine ⟨old,now,again,?_,KeyedTable.Table.key_of_get hrow,hst,rfl⟩
    rw [writesOf_addWrite_self, h]
    rfl
  · cases hr
  · cases hr

/-- Commit, rollback and close end the transaction whatever their outcome. -/
theorem writesOf_ended (he : exec σ p o c out = some (r,σ'))
    (hc : c = .commit ∨ c = .rollback ∨ c = .close) : σ'.writesOf p = [] := by
  rcases hc with rfl | rfl | rfl <;> cases out <;> cases he <;> exact writesOf_discard_self

end Calls

section Workers
variable {σ σ' : World} {w : ℕ} {o : Oracle} {out : Outcome} {p : Phase} {c : Call}
  {k : Except Exc c.Resp → Phase} {r : Except Exc c.Resp}

inductive Updates : Site → JobRow → JobRow → Prop
  | claimed {old : JobRow} (now again : Time) (hst : old.status = .queued) :
      Updates (.claimed old.id (updated .started none now again old)) old
        (updated .started none now again old)
  | processed {old : JobRow} (started : JobRow) (now again : Time) (hst : old.status = .started) :
      Updates (.processed old.id started) old (updated .completed none now again old)
  | requeued {old : JobRow} (started : JobRow) (text : String) (now again : Time)
      (hst : old.status = .started) :
      Updates (.requeued old.id started) old (updated .queued (some text) now again old)
  | failed {old : JobRow} (started : JobRow) (text : String) (now again : Time)
      (hst : old.status = .started) :
      Updates (.failed old.id started) old (updated .failed (some text) now again old)

/-- A transaction that the handler commits updates one row at most, that of
its job. -/
theorem commit_updates {site : Site} {ws : List Write} {old new : JobRow}
    (ho : opened (.commit site) ws) (hu : .updateJob old new ∈ ws) : Updates site old new := by
  cases site with
  | claimed job started =>
    obtain ⟨x,rfl,now,again,rfl,hst,rfl⟩ := ho
    obtain ⟨rfl,rfl⟩ := Write.updateJob.inj (List.mem_singleton.mp hu)
    exact .claimed now again hst
  | processed job started =>
    obtain ⟨a,x,y,rfl,now,again,rfl,hst,rfl⟩ := ho
    obtain ⟨rfl,rfl⟩ : old = x ∧ new = _ := by simpa using hu
    exact .processed started now again hst
  | requeued job started =>
    obtain ⟨x,y,rfl,rfl,hst,text,now,again,rfl⟩ := ho
    obtain ⟨rfl,rfl⟩ := Write.updateJob.inj (List.mem_singleton.mp hu)
    exact .requeued started text now again hst
  | failed job started =>
    obtain ⟨x,y,rfl,rfl,hst,text,now,again,rfl⟩ := ho
    obtain ⟨rfl,rfl⟩ := Write.updateJob.inj (List.mem_singleton.mp hu)
    exact .failed started text now again hst
  | _ =>
    obtain rfl : ws = [] := ho
    cases hu

theorem opened_onFailure (job : Uuid) (started : JobRow) (e : Exc) :
    opened (onFailure job started e) [] := by
  unfold onFailure
  split <;> rfl

theorem opened_leave (site : Site) (e : Option Exc) : opened (leave site e) [] := by
  cases site <;> cases e <;> first | rfl | exact opened_onFailure _ _ _ | skip
  all_goals
    rename_i e
    cases e <;> rfl

/-- One call of the handler keeps the shape of its transaction. -/
theorem opened_call (h : opened p (σ.writesOf (.worker w))) (hv : view p = .calls c k)
    (he : exec σ (.worker w) o c out = some (r,σ')) :
    opened (k r) (σ'.writesOf (.worker w)) := by
  cases p with
  | returned => cases hv
  | raised d e => cases hv
  | commit site =>
    cases hv
    have := writesOf_ended he (Or.inl rfl)
    cases r with
    | ok => exact this
    | error e => trivial
  | rollback site e =>
    cases hv
    have := writesOf_ended he (Or.inr (Or.inl rfl))
    cases r <;> exact this
  | close site e =>
    cases hv
    have := writesOf_ended he (Or.inr (Or.inr rfl))
    rw [this]
    cases r <;> exact opened_leave _ _
  | claim job =>
    cases hv
    rcases exec_updateStatus he with ⟨old,now,again,-,rfl,-,hrow,hst,rfl⟩ | ⟨-,rfl,rfl,-⟩ |
      ⟨f,-,rfl,rfl⟩
    · refine ⟨old,?_,now,again,KeyedTable.Table.key_of_get hrow,hst,rfl⟩
      rw [writesOf_addWrite_self, show σ.writesOf _ = [] from h]
      rfl
    · exact h
    · cases f with
      | mapped => exact writesOf_discard_self
      | unmapped text => trivial
  | processArtifact job started row document markdown =>
    cases hv
    cases r with
    | error e => trivial
    | ok a =>
      obtain ⟨id,now,-,rfl⟩ := ok_createArtifact he
      have hw : σ.writesOf (.worker w) = [] := h
      have ha := writesOf_minted_self (σ := σ) (p := .worker w) (.upsertArtifact (newArtifact
        ⟨job,row.documentId,.markdown,artifactKey row.accountId document.id⟩ id now)) (id::σ.minted)
      rw [hw] at ha
      exact ⟨_,ha⟩
  | processComplete job started row document markdown =>
    cases hv
    obtain ⟨a,ha⟩ := h
    rcases exec_updateStatus he with ⟨old,now,again,-,rfl,-,hrow,hst,rfl⟩ | ⟨-,rfl,rfl,-⟩ |
      ⟨f,-,rfl,rfl⟩
    · refine ⟨a,old,_,?_,now,again,KeyedTable.Table.key_of_get hrow,hst,rfl⟩
      rw [writesOf_addWrite_self, ha]
      rfl
    · trivial
    · trivial
  | requeue job started exc | fail job started exc =>
    cases hv
    cases r with
    | error e => trivial
    | ok row =>
      obtain ⟨old,now,again,hws,hid,hst,rfl⟩ := writesOf_updateStatus h he
      exact ⟨old,_,hws,hid,hst,exc.str,now,again,rfl⟩
  | lookup job =>
    cases hv
    have hn := writesOf_nil he rfl h
    rcases r with e | _ | row
    · trivial
    · exact hn
    · dsimp only
      split <;> exact hn
  | ackSuccess job started =>
    cases hv
    have hn := writesOf_nil he rfl h
    rw [hn]
    cases r with
    | ok => rfl
    | error e => exact opened_onFailure _ _ _
  | enqueue job started =>
    cases hv
    have hn := writesOf_nil he rfl h
    rw [hn]
    rcases r with e | _
    · cases e <;> rfl
    · rfl
  | processJob | processDocument =>
    cases hv
    have hn := writesOf_nil he rfl h
    rcases r with e | _ | row <;> trivial
  | _ =>
    cases hv
    have hn := writesOf_nil he rfl h
    cases r <;> trivial

def sourcePhase : Phase → Phase → Prop
  | p, .close site none => p = .commit site
  | p, .processJob job started => p = .close (.claimed job started) none
  | p, .enqueue job started => p = .close (.requeued job started) none
  | _, _ => True

theorem sourcePhase_onFailure (job : Uuid) (started : JobRow) (e : Exc) :
    sourcePhase p (onFailure job started e) := by
  unfold onFailure
  split <;> trivial

theorem sourcePhase_leave (site : Site) (e : Option Exc) :
    sourcePhase (.close site e) (leave site e) := by
  cases site with
  | processed job started =>
    cases e with
    | none => trivial
    | some e => exact sourcePhase_onFailure job started e
  | requeued job started =>
    rcases e with _ | e
    · rfl
    · cases e <;> trivial
  | failed job started =>
    rcases e with _ | e
    · trivial
    · cases e <;> trivial
  | claimed job started => cases e <;> trivial
  | _ => cases e <;> trivial

theorem sourcePhase_raise (site : Site) (e : Exc) : sourcePhase p (leave site (some e)) := by
  cases site with
  | processed job started => exact sourcePhase_onFailure job started e
  | requeued job started => cases e <;> trivial
  | failed job started => cases e <;> trivial
  | _ => trivial

theorem phase_source (hv : view p = .calls c k) (r : Except Exc c.Resp) :
    sourcePhase p (k r) := by
  cases p with
  | returned => cases hv
  | raised d e => cases hv
  | close site e =>
    cases hv
    cases r with
    | ok _ => exact sourcePhase_leave site e
    | error e' => exact sourcePhase_raise site e'
  | lookup job =>
    cases hv
    rcases r with e | _ | row
    · trivial
    · trivial
    · dsimp only
      split <;> trivial
  | claim job =>
    cases hv
    rcases r with e | started
    · cases e <;> trivial
    · trivial
  | ackSuccess job started =>
    cases hv
    rcases r with e | _
    · exact sourcePhase_onFailure job started e
    · trivial
  | enqueue job started =>
    cases hv
    rcases r with e | _
    · cases e <;> trivial
    · trivial
  | processJob job started => cases hv; rcases r with e | _ | row <;> trivial
  | processDocument job started row => cases hv; rcases r with e | _ | row <;> trivial
  | _ => cases hv; cases r <;> trivial

theorem phase_at_commit {k : Except Exc Unit → Phase} (hv : view p = .calls .commit k) :
    ∃ site, p = .commit site := by
  cases p <;> cases hv
  exact ⟨_,rfl⟩

end Workers

section Requests
variable {threshold : ℕ} {σ σ' : World} {q : ℕ} {o : Oracle} {out : Outcome} {x : Stage}
  {account : AccountId} {c : Call} {k : Except Exc c.Resp → Stage} {r : Except Exc c.Resp}

theorem openedStage_signing (rows : List ArtifactRow) (done : List (Uuid × ArtifactType × Url)) :
    openedStage account (signing rows done) [] := by
  cases rows <;> rfl

theorem openedStage_leave (sent : Bool) (e : Option Exc) :
    openedStage account (leaveRequest sent e) [] := by
  cases sent <;> cases e <;> rfl

def creatingStage : Stage → Bool
  | .findDocument _ | .checkObject _ _ | .checkDepth _ _ | .insertJob _ _ => true
  | .commitJob _ | .enqueueJob _ => true
  | _ => false

def registeringStage : Stage → Bool
  | .mintDocument _ | .insertDocument _ _ | .signUpload _ => true
  | _ => false

def readingStage : Stage → Bool
  | .readDocument _ _ | .listDocument _ _ | .listRows _ _ | .signDownloads _ _ _ => true
  | .readJob _ _ => true
  | _ => false

theorem opened_registering (hx : registeringStage x = true)
    (h : openedStage account x (σ.writesOf (.request q)))
    (hv : viewStage threshold x = .calls c k)
    (he : exec σ (.request q) o c out = some (r,σ')) :
    openedStage account (k r) (σ'.writesOf (.request q)) := by
  cases x with
  | mintDocument a =>
    cases hv
    have hn := writesOf_nil he rfl h.1
    cases r with
    | error e => trivial
    | ok id => exact ⟨hn,h.2⟩
  | insertDocument a id =>
    cases hv
    obtain ⟨hn,rfl⟩ := h
    cases r with
    | error e => trivial
    | ok row =>
      obtain ⟨⟨now,rfl⟩,rfl⟩ := ok_createDocument he
      refine ⟨?_,rfl,rfl⟩
      rw [writesOf_addWrite_self, hn]
      rfl
  | signUpload document =>
    cases hv
    cases r with
    | error e => trivial
    | ok url =>
      have hx := (exec_ok he).2
      cases hx
      exact ⟨document,h.1,h.2,rfl,rfl⟩
  | _ => cases hx

theorem opened_creating (hx : creatingStage x = true)
    (h : openedStage account x (σ.writesOf (.request q)))
    (hv : viewStage threshold x = .calls c k)
    (he : exec σ (.request q) o c out = some (r,σ')) :
    openedStage account (k r) (σ'.writesOf (.request q)) := by
  cases x with
  | findDocument dto =>
    cases hv
    have hn := writesOf_nil he rfl h.1
    rcases r with e | _ | document
    · trivial
    · trivial
    · exact ⟨hn,h.2⟩
  | checkObject dto document =>
    cases hv
    have hn := writesOf_nil he rfl h.1
    rcases r with e | _ | _
    · trivial
    · trivial
    · exact ⟨hn,h.2⟩
  | checkDepth dto document =>
    cases hv
    have hn := writesOf_nil he rfl h.1
    rcases r with e | depth
    · trivial
    · dsimp only
      split
      · trivial
      · exact ⟨hn,h.2⟩
  | insertJob dto document =>
    cases hv
    cases r with
    | error e => trivial
    | ok job =>
      obtain ⟨-,-,-,rfl,rfl⟩ := ok_createJob he
      refine ⟨(writesOf_minted_self _ _).trans ?_,h.2,dto,_,_,_,_,rfl⟩
      rw [h.1]
      rfl
  | commitJob job =>
    cases hv
    have hn := writesOf_ended he (Or.inl rfl)
    cases r with
    | error e => trivial
    | ok _ => exact ⟨hn,h.2.1⟩
  | enqueueJob job =>
    cases hv
    have hn := writesOf_nil he rfl h.1
    cases r with
    | error e => trivial
    | ok _ => exact hn
  | _ => cases hx

theorem opened_reading (hx : readingStage x = true)
    (h : openedStage account x (σ.writesOf (.request q)))
    (hv : viewStage threshold x = .calls c k)
    (he : exec σ (.request q) o c out = some (r,σ')) :
    openedStage account (k r) (σ'.writesOf (.request q)) := by
  cases x with
  | readDocument a id =>
    cases hv
    have hn := writesOf_nil he rfl h.1
    rcases r with e | _ | document
    · trivial
    · trivial
    · exact hn
  | listDocument a id =>
    cases hv
    have hn := writesOf_nil he rfl h.1
    rcases r with e | _ | document
    · trivial
    · trivial
    · exact ⟨hn,h.2⟩
  | listRows a id =>
    cases hv
    have hn := writesOf_nil he rfl h.1
    rw [hn]
    cases r with
    | error e => trivial
    | ok rows => exact openedStage_signing _ _
  | signDownloads artifact rest done =>
    cases hv
    have hn := writesOf_nil he rfl h
    rw [hn]
    cases r with
    | error e => trivial
    | ok url => exact openedStage_signing _ _
  | readJob a id =>
    cases hv
    have hn := writesOf_nil he rfl h.1
    rcases r with e | _ | job
    · trivial
    · trivial
    · exact hn
  | _ => cases hx

/-- One call of a request keeps the shape of its transaction. -/
theorem opened_serve (h : openedStage account x (σ.writesOf (.request q)))
    (hv : viewStage threshold x = .calls c k)
    (he : exec σ (.request q) o c out = some (r,σ')) :
    openedStage account (k r) (σ'.writesOf (.request q)) := by
  cases x with
  | finished => cases hv
  | crashed e => cases hv
  | respond response =>
    cases hv
    rcases r with e | _
    · trivial
    · have hx := (exec_ok he).2
      cases hx
      rw [writesOf_congr (send_inflight σ _ response)]
      cases response <;> exact h
  | commit response =>
    cases hv
    have hn := writesOf_ended he (Or.inl rfl)
    cases r with
    | error e => trivial
    | ok _ => exact hn
  | rollback sent e =>
    cases hv
    have hn := writesOf_ended he (Or.inr (Or.inl rfl))
    cases r <;> exact hn
  | close sent e =>
    cases hv
    have hn := writesOf_ended he (Or.inr (Or.inr rfl))
    rw [hn]
    cases r <;> exact openedStage_leave _ _
  | respondError e =>
    cases hv
    have hn := writesOf_nil he rfl h
    cases r <;> exact hn
  | _ =>
    first
      | exact opened_registering rfl h hv he
      | exact opened_creating rfl h hv he
      | exact opened_reading rfl h hv he

def sourceStage : Stage → Stage → Prop
  | x, .insertDocument a _ => x = .mintDocument a
  | x, .signUpload _ => ∃ a id, x = .insertDocument a id
  | x, .commitJob _ => ∃ dto document, x = .insertJob dto document
  | x, .enqueueJob job => x = .commitJob job
  | _, _ => True

theorem sourceStage_signing (rows : List ArtifactRow) (done : List (Uuid × ArtifactType × Url)) :
    sourceStage x (signing rows done) := by
  cases rows <;> trivial

theorem sourceStage_leave (sent : Bool) (e : Option Exc) :
    sourceStage x (leaveRequest sent e) := by
  cases sent <;> cases e <;> trivial

theorem stage_source (hv : viewStage threshold x = .calls c k) (r : Except Exc c.Resp) :
    sourceStage x (k r) := by
  cases x with
  | finished => cases hv
  | crashed e => cases hv
  | mintDocument a => cases hv; cases r <;> trivial
  | insertDocument a id => cases hv; cases r <;> first | trivial | exact ⟨_,_,rfl⟩
  | insertJob dto document => cases hv; cases r <;> first | trivial | exact ⟨_,_,rfl⟩
  | commitJob job => cases hv; cases r <;> trivial
  | findDocument dto => cases hv; rcases r with e | _ | _ <;> trivial
  | checkObject dto document => cases hv; rcases r with e | _ | _ <;> trivial
  | checkDepth dto document =>
    cases hv
    rcases r with e | depth
    · trivial
    · dsimp only
      split <;> trivial
  | readDocument a id => cases hv; rcases r with e | _ | _ <;> trivial
  | listDocument a id => cases hv; rcases r with e | _ | _ <;> trivial
  | readJob a id => cases hv; rcases r with e | _ | _ <;> trivial
  | listRows a id =>
    cases hv
    cases r with
    | error e => trivial
    | ok rows => exact sourceStage_signing _ _
  | signDownloads artifact rest done =>
    cases hv
    cases r with
    | error e => trivial
    | ok url => exact sourceStage_signing _ _
  | close sent e => cases hv; cases r <;> exact sourceStage_leave _ _
  | _ => cases hv; cases r <;> trivial

/-- What the two commits of a request write. -/
theorem stage_at_commit {k : Except Exc Unit → Stage} {ws : List Write}
    (hv : viewStage threshold x = .calls .commit k) (ho : openedStage account x ws) :
    ws = [] ∨ (∃ job, x = .commitJob job ∧ ws = [.insertJob job]) ∨
      ∃ id url row, x = .commit (.documentCreated id url) ∧ ws = [.insertDocument row] ∧
        Uploadable account row ∧ row.id = id ∧ url = .put row.objectKey := by
  cases x with
  | commitJob job => exact Or.inr (Or.inl ⟨job,rfl,ho.1⟩)
  | commit response =>
    cases response with
    | documentCreated id url =>
      obtain ⟨row,hws,hrow⟩ := ho
      exact Or.inr (Or.inr ⟨id,url,row,rfl,hws,hrow⟩)
    | _ => exact Or.inl ho
  | finished => cases hv
  | crashed e => cases hv
  | _ => cases hv

end Requests

section Steps
variable {threshold : ℕ} {s s' : State} {l : Label}

theorem openedWorker_start (m : Message) : openedWorker (.handling m (start m.body)) [] := by
  simp only [openedWorker, start]
  split <;> rfl

theorem openedStage_start (account : AccountId) (route : Route) :
    openedStage account (startStage account route) [] := by
  cases route <;> exact ⟨rfl,rfl⟩

theorem Opened.init : Opened init := ⟨fun _ => rfl,fun _ => rfl⟩

theorem Opened.setWorker (h : Opened s) {w : ℕ} {x : Worker} {σ : World}
    (hw : openedWorker x (σ.writesOf (.worker w)))
    (ho : ∀ q, q ≠ .worker w → σ.writesOf q = s.world.writesOf q) :
    Opened { s.setWorker w x with world := σ } := by
  constructor
  · refine (Function.forall_update_iff s.workers
      (fun v y => openedWorker y (σ.writesOf (.worker v)))).mpr ⟨hw,fun v hv => ?_⟩
    rw [ho _ (fun he => hv (Proc.worker.inj he))]
    exact h.workers v
  · intro r
    rw [ho _ (by simp)]
    exact h.requests r

theorem Opened.setStage (h : Opened s) {r : ℕ} {account : AccountId} {x : Stage} {σ : World}
    (hr : openedStage account x (σ.writesOf (.request r)))
    (ho : ∀ q, q ≠ .request r → σ.writesOf q = s.world.writesOf q) :
    Opened { s.setStage r account x with world := σ } := by
  constructor
  · intro w
    rw [ho _ (by simp)]
    exact h.workers w
  · refine (Function.forall_update_iff s.requests
      (fun v y => openedRequest y (σ.writesOf (.request v)))).mpr ⟨hr,fun v hv => ?_⟩
    rw [ho _ (fun he => hv (Proc.request.inj he))]
    exact h.requests v

theorem Opened.endWorker (h : Opened s) (w : ℕ) : Opened (s.endWorker w) := by
  have hw : ∀ q, ((s.world.discard (.worker w)).requeue (.worker w)).writesOf q =
      (s.world.discard (.worker w)).writesOf q := writesOf_congr (requeue_inflight _ _)
  refine h.setWorker ?_ (fun q hq => ?_)
  · rw [hw]
    exact writesOf_discard_self
  · rw [hw, writesOf_discard, if_neg hq]

theorem Opened.step (h : Opened s) (hm : Move threshold s l s') : Opened s' := by
  cases hm with
  | @deliver w i m hw hu hi =>
    have hn := h.workers w
    rw [hw] at hn
    exact h.setWorker hn (fun _ _ => rfl)
  | @begin w m hw =>
    have hn : s.world.writesOf (.worker w) = [] := by simpa [hw, openedWorker] using h.workers w
    exact h.setWorker (by rw [hn]; exact openedWorker_start m) (fun _ _ => rfl)
  | @loop w m hw =>
    have hn := h.workers w
    rw [hw] at hn
    exact h.setWorker hn (fun _ _ => rfl)
  | @call w m p c k o out r σ hw hv he =>
    have hn := h.workers w
    rw [hw] at hn
    have hc := opened_call hn hv he
    exact h.setWorker hc (fun q hq => (exec_effect he).writesOf_other hq)
  | stop hw => exact h.endWorker _
  | die hw => exact h.endWorker _
  | @lose w m hw hu =>
    have hn : ∀ q, (s.world.requeue (.worker w)).writesOf q = s.world.writesOf q :=
      writesOf_congr (requeue_inflight _ _)
    exact ⟨fun v => by rw [hn]; exact h.workers v,fun r => by rw [hn]; exact h.requests r⟩
  | duplicate hi => exact ⟨h.workers,h.requests⟩
  | inject body => exact ⟨h.workers,h.requests⟩
  | @arrive r account route hr =>
    have hn : s.world.writesOf (.request r) = [] := by
      simpa [hr, openedRequest] using h.requests r
    exact h.setStage (by rw [hn]; exact openedStage_start account route) (fun _ _ => rfl)
  | @serve q x c k o out r σ hq hv he =>
    have hn := h.requests q
    rw [hq] at hn
    have hc := opened_serve hn hv he
    exact h.setStage hc (fun q hq => (exec_effect he).writesOf_other hq)
  | @abort q x hq =>
    refine h.setStage ?_ (fun p hp => ?_)
    · exact writesOf_discard_self
    · rw [writesOf_discard, if_neg hp]
  | receive hq hw => exact ⟨h.workers,h.requests⟩
  | upload content hu => exact ⟨h.workers,h.requests⟩

theorem opened_of_reachable (h : Reachable (step threshold) init s) : Opened s :=
  h.invariant Opened.init (fun _ _ _ _ hs hstep => hs.step (step_move hstep))

end Steps

end DocPipeline.Transactions
