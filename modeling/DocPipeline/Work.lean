import DocPipeline.Publication
import DocPipeline.Library.Amortized

/-!
# The work of a run

Every call that a handler or a request makes is paid for by the message or
the request that it serves. A retry publishes a message of its own, for which
the budget of its job pays: there are no steps without end.
-/

set_option autoImplicit false

namespace DocPipeline.Work
open DocPipeline.Identifiers DocPipeline.Records DocPipeline.Database DocPipeline.Calls
open DocPipeline.Consumer DocPipeline.Routes DocPipeline.System DocPipeline.Moves
open DocPipeline.Effects DocPipeline.Answers DocPipeline.Transactions DocPipeline.Pending
open DocPipeline.Stances DocPipeline.Ledger DocPipeline.Publication DocPipeline.Exclusion
open LabelledRuns EffectProgram KeyedTable

/-- The steps a handler may still take once it closes a session, a message
that it may still publish being worth 27 of them. -/
def closeRank : Site → Option Exc → ℕ
  | .dropping, _ => 2
  | .claiming, _ => 2
  | .looked _, _ => 22
  | .claimed _ _, _ => 18
  | .processed _ _, _ => 8
  | .requeued _ _, none => 31
  | .requeued _ _, some _ => 3
  | .failed _ _, _ => 3

/-- The steps a handler may still take. A message that it is about to give
back counts with them; after the commit of a retry the budget of the job pays
for the message. -/
def phaseRank : Phase → ℕ
  | .ackPoison => 2
  | .lookup _ => 25
  | .ackDrop => 5
  | .claim _ => 21
  | .nack => 32
  | .processJob _ _ => 17
  | .processDocument _ _ _ => 16
  | .processFetch _ _ _ _ => 15
  | .processParse _ _ _ _ _ => 14
  | .processPut _ _ _ _ _ => 13
  | .processArtifact _ _ _ _ _ => 12
  | .processComplete _ _ _ _ _ => 11
  | .ackSuccess _ _ => 7
  | .requeue _ _ _ => 6
  | .fail _ _ _ => 6
  | .enqueue _ _ => 30
  | .ackFailure => 2
  | .commit (.requeued _ _) => 5
  | .commit site => closeRank site none+2
  | .rollback site exc => closeRank site (some exc)+1
  | .close site exc => closeRank site exc
  | .returned => 1
  | .raised _ _ => 0

def workerRank : Worker → ℕ
  | .idle => 0
  | .received _ => 26
  | .handling _ p => phaseRank p
  | .dead => 0

def stageRank : Stage → ℕ
  | .mintDocument _ => 8
  | .insertDocument _ _ => 7
  | .signUpload _ => 6
  | .findDocument _ => 38
  | .checkObject _ _ => 37
  | .checkDepth _ _ => 36
  | .insertJob _ _ => 35
  | .commitJob _ => 34
  | .enqueueJob _ => 33
  | .readDocument _ _ => 6
  | .listDocument _ _ => 8
  | .listRows _ _ => 7
  | .signDownloads _ rest _ => rest.length+6
  | .readJob _ _ => 6
  | .respond _ => 5
  | .commit _ => 4
  | .rollback _ _ => 3
  | .close _ _ => 2
  | .respondError _ => 1
  | .finished => 0
  | .crashed _ => 0

def requestRank : Option Request → ℕ
  | some q => stageRank q.stage
  | none => 0

def retriesLeft (row : JobRow) : ℕ :=
  match row.status with
  | .queued => row.maxAttempts-1-row.attempts
  | .started => row.maxAttempts-row.attempts
  | .completed => 0
  | .failed => 0

def leftOf (db : Tables) : ℕ := (db.jobs.rows.map retriesLeft).sum

def budgetOf (db : Tables) : ℕ := (db.jobs.rows.map JobRow.maxAttempts).sum

/-- The steps of the code: deliveries, calls, and the turns of the worker's
loop. The others are those of the clients, the broker and the machines. -/
def works : State × Label → Bool
  | (_,.deliver _ _) | (_,.begin _) | (_,.call _ _ _) | (_,.loop _) | (_,.serve _ _ _) => true
  | _ => false

def refused : Worker → Outcome → Bool
  | .handling _ (.claim _), .raises _ => true
  | _, _ => false

/-- What makes a message ready that the code has not published. -/
def disturbs : State × Label → Bool
  | (_,.inject _) | (_,.duplicate _) | (_,.lose _) | (_,.stop _) | (_,.die _) => true
  | (s,.call w _ out) => refused (s.workers w) out
  | _ => false

def arrives : State × Label → Bool
  | (_,.arrive _ _ _) => true
  | _ => false

def work (s : State) (l : Label) : ℕ := if works (s,l) then 1 else 0

def credit (s : State) (l : Label) : ℕ :=
  (if arrives (s,l) then 38 else 0)+if disturbs (s,l) then 27 else 0

def potential (W R : Finset ℕ) (s : State) : ℕ :=
  27*s.world.ready.length+∑ w ∈ W, workerRank (s.workers w)+
    ∑ r ∈ R, requestRank (s.requests r)+27*leftOf s.world.db

def Grants (M : ℕ) (_ : State) : Label → Prop
  | .serve _ o _ => o.maxAttempts ≤ M
  | _ => True

def owedStage (M : ℕ) : Stage → ℕ
  | .findDocument _ | .checkObject _ _ | .checkDepth _ _ | .insertJob _ _ => M
  | .commitJob job => job.maxAttempts
  | _ => 0

def owed (M : ℕ) : Option Request → ℕ
  | some q => owedStage M q.stage
  | none => 0

def outlay (M : ℕ) (R : Finset ℕ) (s : State) : ℕ :=
  budgetOf s.world.db+∑ r ∈ R, owed M (s.requests r)

def publishes : Phase → ℕ
  | .enqueue _ _ => 27
  | .nack => 27
  | _ => 0

def publishesStage : Stage → ℕ
  | .enqueueJob _ => 27
  | _ => 0

def refunds : Phase → ℕ
  | .commit (.requeued _ _) => 27
  | _ => 0

def isOk {α : Type} : Except Exc α → Bool
  | .ok _ => true
  | .error _ => false

theorem requeue_length (σ : World) (w : ℕ) :
    (σ.requeue (.worker w)).ready.length ≤ σ.ready.length+1 := by
  unfold World.requeue
  dsimp only
  split <;> simp

section Ranks
variable {p : Phase} {c : Call} {k : Except Exc c.Resp → Phase} {σ σ' : World} {w : ℕ} {m : Message}
  {o : Oracle} {out : Outcome} {r : Except Exc c.Resp}

theorem rank_onFailure (job : Uuid) (started : JobRow) (e : Exc) :
    phaseRank (onFailure job started e) = 6 := by
  unfold onFailure
  split <;> rfl

theorem rank_leave (site : Site) (e : Option Exc) :
    phaseRank (leave site e)+1 ≤ closeRank site e := by
  cases site with
  | processed job started =>
    cases e with
    | none => exact (by decide : 7+1 ≤ 8)
    | some e =>
      rw [leave, rank_onFailure]
      exact (by decide : 6+1 ≤ 8)
  | requeued job started =>
    rcases e with _ | e
    · exact (by decide : 30+1 ≤ 31)
    · cases e <;> simp [leave, phaseRank, closeRank]
  | failed job started =>
    rcases e with _ | e
    · exact (by decide : 2+1 ≤ 3)
    · cases e <;> simp [leave, phaseRank, closeRank]
  | _ => cases e <;> simp [leave, phaseRank, closeRank]

theorem closeRank_some (site : Site) (e e' : Exc) :
    closeRank site (some e) = closeRank site (some e') := by
  cases site <;> rfl

theorem closeRank_none (site : Site) (e : Exc) (h : ∀ job started, site ≠ .requeued job started) :
    closeRank site (some e) = closeRank site none := by
  cases site with
  | requeued job started => exact absurd rfl (h job started)
  | _ => rfl

theorem rank_start (body : Body) : phaseRank (start body) ≤ 25 := by
  unfold start
  split <;> simp [phaseRank]

theorem rank_commit {site : Site} (h : ∀ job started, site ≠ .requeued job started) :
    phaseRank (.commit site) = closeRank site none+2 := by
  cases site with
  | requeued job started => exact absurd rfl (h job started)
  | _ => rfl

theorem closeRank_raise (site : Site) (e : Option Exc) (e' : Exc) :
    closeRank site (some e') ≤ closeRank site e := by
  cases site <;> cases e <;> simp [closeRank]

/-- Every call of the handler takes one step off its rank and pays for what
it makes ready, but for the commit of a retry. -/
theorem rank_call_plain (hv : view p = .calls c k)
    (he : exec σ (.worker w) o c out = some (r,σ'))
    (hp : ∀ job started, p ≠ .commit (.requeued job started)) :
    phaseRank (k r)+1+publishes p ≤ phaseRank p+(if refused (.handling m p) out then 27 else 0) := by
  cases p with
  | returned => cases hv
  | raised d e => cases hv
  | commit site =>
    cases hv
    have hne : ∀ job started, site ≠ .requeued job started := fun j t h => hp j t (by rw [h])
    rw [rank_commit hne]
    cases r with
    | ok => simp [phaseRank, publishes, refused]
    | error e => simp [phaseRank, publishes, refused, closeRank_none site e hne]
  | rollback site e =>
    cases hv
    cases r with
    | ok => simp [phaseRank, publishes, refused]
    | error e' => simp [phaseRank, publishes, refused, closeRank_some site e' e]
  | close site e =>
    cases hv
    cases r with
    | ok => exact rank_leave site e
    | error e' => exact (rank_leave site (some e')).trans (closeRank_raise site e e')
  | lookup job =>
    cases hv
    rcases r with e | _ | row
    · simp [phaseRank, closeRank, publishes, refused]
    · simp [phaseRank, publishes, refused]
    · dsimp only
      split <;> simp [phaseRank, closeRank, publishes, refused]
  | claim job =>
    cases hv
    rcases exec_updateStatus he with ⟨old,now,again,rfl,rfl,-⟩ | ⟨rfl,rfl,-⟩ |
      ⟨f,rfl,rfl,-⟩
    · simp [phaseRank, closeRank, publishes, refused]
    · simp [phaseRank, publishes, refused]
    · cases f <;> simp [phaseRank, closeRank, publishes, refused, Call.fault, Call.mapped]
  | ackSuccess job started =>
    cases hv
    cases r with
    | ok => simp [phaseRank, publishes, refused]
    | error e => exact Nat.succ_le_succ (rank_onFailure job started e).le
  | enqueue job started =>
    cases hv
    rcases r with e | _
    · cases e <;> simp [phaseRank, publishes, refused]
    · simp [phaseRank, publishes, refused]
  | processJob job started =>
    cases hv
    rcases r with e | _ | row <;> simp [phaseRank, closeRank, publishes, refused]
  | processDocument job started row =>
    cases hv
    rcases r with e | _ | document <;> simp [phaseRank, closeRank, publishes, refused]
  | _ =>
    cases hv
    cases r <;> simp [phaseRank, closeRank, publishes, refused]

theorem rank_call (hv : view p = .calls c k) (he : exec σ (.worker w) o c out = some (r,σ')) :
    phaseRank (k r)+1+publishes p ≤ phaseRank p+
      (if refused (.handling m p) out then 27 else 0)+if isOk r then refunds p else 0 := by
  by_cases hp : ∃ job started, p = .commit (.requeued job started)
  · obtain ⟨job,started,rfl⟩ := hp
    cases hv
    cases r <;> simp [phaseRank, closeRank, publishes, refunds, refused, isOk]
  · have hne : ∀ job started, p ≠ .commit (.requeued job started) := fun j t h => hp ⟨j,t,h⟩
    exact (rank_call_plain hv he hne).trans (Nat.le_add_right _ _)

theorem rank_signing (rows : List ArtifactRow) (done : List (Uuid × ArtifactType × Url)) :
    stageRank (signing rows done) = rows.length+5 := by
  cases rows with
  | nil => rfl
  | cons artifact rest => simp [signing, stageRank]

theorem rank_leaveRequest (sent : Bool) (e : Option Exc) : stageRank (leaveRequest sent e) ≤ 1 := by
  cases sent <;> cases e <;> simp [leaveRequest, stageRank]

theorem rank_startStage (account : AccountId) (route : Route) :
    stageRank (startStage account route) ≤ 38 := by
  cases route <;> simp [startStage, stageRank]

theorem ok_listArtifacts {σ σ' : World} {p : Proc} {o : Oracle} {out : Outcome} {id : Uuid}
    {account : AccountId} {rows : List ArtifactRow}
    (h : exec σ p o (.listArtifacts id account) out = some (.ok rows,σ')) :
    rows = σ.db.listArtifacts id account := by
  have h := (exec_ok h).2
  cases h
  rfl

/-- A document has one artifact at most, so listing takes one signature. -/
theorem listArtifacts_length (db : Tables) (document : Uuid) (account : AccountId) :
    (db.listArtifacts document account).length ≤ 1 := by
  have hslots : ((db.listArtifacts document account).map ArtifactRow.slot).Nodup :=
    db.artifacts.nodup.sublist (List.filter_sublist.map _)
  have hall : ∀ x ∈ (db.listArtifacts document account).map ArtifactRow.slot,
      x = (document,.markdown) := by
    intro x hx
    obtain ⟨row,hrow,rfl⟩ := List.mem_map.mp hx
    have hdoc : row.documentId = document := by
      simp only [Tables.listArtifacts, List.mem_filter, Bool.and_eq_true, decide_eq_true_eq] at hrow
      exact hrow.2.1
    exact Prod.ext hdoc rfl
  rw [List.eq_replicate_of_mem hall, List.nodup_replicate, List.length_map] at hslots
  exact hslots

/-- Every call of a request takes one step off its rank and pays for what it
publishes. -/
theorem rank_serve {threshold : ℕ} {σ σ' : World} {q : ℕ} {o : Oracle} {out : Outcome} {x : Stage}
    {c : Call} {k : Except Exc c.Resp → Stage} {r : Except Exc c.Resp}
    (hv : viewStage threshold x = .calls c k) (he : exec σ (.request q) o c out = some (r,σ')) :
    stageRank (k r)+1+publishesStage x ≤ stageRank x := by
  cases x with
  | finished => cases hv
  | crashed e => cases hv
  | listRows a id =>
    cases hv
    cases r with
    | error e => simp [stageRank, publishesStage]
    | ok rows =>
      obtain rfl : rows = σ.db.listArtifacts id a := ok_listArtifacts he
      have hlen := listArtifacts_length σ.db id a
      have hrank := rank_signing (σ.db.listArtifacts id a) []
      change stageRank (signing _ []) + 1 ≤ 7
      omega
  | signDownloads artifact rest done =>
    cases hv
    cases r with
    | error e => simp [stageRank, publishesStage]
    | ok url => exact (congrArg (·+1) (rank_signing rest _)).le
  | close sent e =>
    cases hv
    cases r with
    | ok => exact Nat.succ_le_succ (rank_leaveRequest sent e)
    | error e' => exact Nat.succ_le_succ (rank_leaveRequest sent (some e'))
  | checkObject dto document =>
    cases hv
    rcases r with e | _ | _ <;> simp [stageRank, publishesStage]
  | checkDepth dto document =>
    cases hv
    rcases r with e | depth
    · simp [stageRank, publishesStage]
    · dsimp only
      split <;> simp [stageRank, publishesStage]
  | findDocument dto =>
    cases hv
    rcases r with e | _ | document <;> simp [stageRank, publishesStage]
  | readDocument a id =>
    cases hv
    rcases r with e | _ | document <;> simp [stageRank, publishesStage]
  | listDocument a id =>
    cases hv
    rcases r with e | _ | document <;> simp [stageRank, publishesStage]
  | readJob a id =>
    cases hv
    rcases r with e | _ | job <;> simp [stageRank, publishesStage]
  | _ =>
    cases hv
    cases r <;> simp [stageRank, publishesStage]

end Ranks

section Tables
variable {db db' : Tables} {log es : List Event}

theorem left_put {old new : JobRow} (hrow : db.jobs.get old.id = some old) (hid : new.id = old.id) :
    ((db.jobs.put new).rows.map retriesLeft).sum+retriesLeft old = leftOf db+retriesLeft new :=
  Table.sum_put retriesLeft hrow hid

theorem budget_put {old new : JobRow} (hrow : db.jobs.get old.id = some old)
    (hid : new.id = old.id) (hmax : new.maxAttempts = old.maxAttempts) :
    ((db.jobs.put new).rows.map JobRow.maxAttempts).sum = budgetOf db := by
  have := Table.sum_put JobRow.maxAttempts hrow hid
  unfold budgetOf
  omega

/-- A posting adds to the retries that are left what it adds to the budget,
and a retry takes one of them. -/
theorem posting_left (hp : Posting db log es db') :
    leftOf db'+budgetOf db ≤ leftOf db+budgetOf db' := by
  have hput : ∀ old new, db.jobs.get old.id = some old → new.id = old.id →
      new.maxAttempts = old.maxAttempts → retriesLeft new ≤ retriesLeft old →
      ((db.jobs.put new).rows.map retriesLeft).sum+budgetOf db ≤
        leftOf db+((db.jobs.put new).rows.map JobRow.maxAttempts).sum := by
    intro old new hrow hid hmax hle
    have hl := left_put hrow hid
    rw [budget_put hrow hid hmax]
    omega
  cases hp with
  | document row hfresh hkey => exact le_rfl
  | created row hfresh hindex howner hnew =>
    obtain ⟨dto,id,m,now,again,rfl⟩ := hnew
    simp only [leftOf, budgetOf, Table.sum_insert _ _ _ hfresh]
    simp only [retriesLeft, newJob]
    omega
  | claimed w old now again hrow hst =>
    refine hput old _ hrow (by simp) (by simp) ?_
    simp only [retriesLeft, updated_status, updated_attempts, updated_maxAttempts, hst, if_true]
    omega
  | completed w old now again a hrow hst ha =>
    exact hput old _ hrow (by simp) (by simp) (by simp [retriesLeft])
  | requeued w old text now again hrow hst hmore htext =>
    refine hput old _ hrow (by simp) (by simp) ?_
    simp only [retriesLeft, updated_status, updated_attempts, updated_maxAttempts, hst]
    simp only [reduceCtorEq, if_false]
    omega
  | failed w old text now again hrow hst hlast htext =>
    exact hput old _ hrow (by simp) (by simp) (by simp [retriesLeft])

/-- A posting adds to the budget the attempts of the job that it creates. -/
theorem posting_budget (hp : Posting db log es db') :
    budgetOf db' = budgetOf db ∨ ∃ row, db.jobs.get row.id = none ∧
      db'.jobs.get row.id = some row ∧ budgetOf db' = budgetOf db+row.maxAttempts := by
  cases hp with
  | document row hfresh hkey => exact Or.inl rfl
  | created row hfresh hindex howner hnew =>
    refine Or.inr ⟨row,hfresh,?_,?_⟩
    · simp [Table.get_insert hfresh]
    · simp only [budgetOf, Table.sum_insert _ _ _ hfresh]
      omega
  | claimed w old now again hrow hst => exact Or.inl (budget_put hrow (by simp) (by simp))
  | completed w old now again a hrow hst ha => exact Or.inl (budget_put hrow (by simp) (by simp))
  | requeued w old text now again hrow hst hmore htext =>
    exact Or.inl (budget_put hrow (by simp) (by simp))
  | failed w old text now again hrow hst hlast htext =>
    exact Or.inl (budget_put hrow (by simp) (by simp))

end Tables

section Steps
variable {threshold : ℕ} {s s' : State} {l : Label}

/-- The commit of a retry spends one of the retries that are left. -/
theorem commit_retry (hs : Sound s) {w : ℕ} {m : Message} {job : Uuid} {started : JobRow}
    (hw : s.workers w = .handling m (.commit (.requeued job started))) :
    leftOf (s.world.commit (.worker w)).db+1 = leftOf s.world.db ∧
      budgetOf (s.world.commit (.worker w)).db = budgetOf s.world.db := by
  have hop := hs.opened.workers w
  have hh := hs.engaged.holds w
  have hk := hs.informed.workers w
  rw [hw] at hop hh hk
  obtain ⟨rfl,hst,text,now,again,-,hdb,-⟩ := commit_released
    (hs.guarded.fenced.isolated.ready (.worker w)) hop (by simp) hh.2 hk.2
  have hmore : started.attempts < started.maxAttempts := hk.1
  have hid : (updated .queued (some text) now again started).id = started.id := by simp
  have hl := left_put hh.2 hid
  have hb := budget_put hh.2 hid (by simp)
  rw [hdb]
  refine ⟨?_,hb⟩
  simp only [retriesLeft, updated_status, updated_attempts, updated_maxAttempts, hst,
    reduceCtorEq, if_false] at hl
  simp only [leftOf] at hl ⊢
  omega

/-- What a call of the handler does to the queue. -/
theorem ready_call {σ : World} {w : ℕ} {p : Phase} {o : Oracle} {out : Outcome} {c : Call}
    {k : Except Exc c.Resp → Phase} {r : Except Exc c.Resp} (hv : view p = .calls c k)
    (he : exec s.world (.worker w) o c out = some (r,σ)) :
    27*σ.ready.length ≤ 27*s.world.ready.length+publishes p := by
  have heff := exec_effect he
  by_cases hq : c = .nack ∨ ∃ payload, c = .enqueue payload
  · have hp : publishes p = 27 := by
      rcases hq with rfl | ⟨payload,rfl⟩
      · cases p <;> cases hv
        rfl
      · obtain ⟨job,started,rfl,-⟩ := view_enqueue hv
        rfl
    have hlen : σ.ready.length ≤ s.world.ready.length+1 := by
      rcases hq with rfl | ⟨payload,rfl⟩
      · cases heff with
        | same => exact Nat.le_succ _
        | discard => exact Nat.le_succ _
        | nack => exact requeue_length s.world w
      · cases heff with
        | same => exact Nat.le_succ _
        | discard => exact Nat.le_succ _
        | enqueue => simp [World.publish]
    omega
  · rw [heff.ready (fun payload h => hq (Or.inr ⟨payload,h⟩)) (fun h => hq (Or.inl h))]
    omega

theorem ready_serve {σ : World} {q : ℕ} {x : Stage} {o : Oracle} {out : Outcome}
    {c : Call} {k : Except Exc c.Resp → Stage} {r : Except Exc c.Resp}
    (hv : viewStage threshold x = .calls c k)
    (he : exec s.world (.request q) o c out = some (r,σ)) :
    27*σ.ready.length ≤ 27*s.world.ready.length+publishesStage x := by
  have heff := exec_effect he
  by_cases hq : ∃ payload, c = .enqueue payload
  · obtain ⟨payload,rfl⟩ := hq
    obtain ⟨job,rfl,-⟩ := viewStage_enqueue hv
    have hlen : σ.ready.length ≤ s.world.ready.length+1 := by
      cases heff with
      | same => omega
      | discard => exact Nat.le_succ _
      | enqueue => simp [World.publish]
    simp only [publishesStage]
    omega
  · have hnack : c ≠ .nack := by
      rintro rfl
      cases x <;> cases hv
    rw [heff.ready (fun payload h => hq ⟨payload,h⟩) hnack]
    omega

/-- What a step does to the retries that are left, against the budget. -/
theorem step_left (hs : Sound s) (hm : Move threshold s l s') :
    leftOf s'.world.db+budgetOf s.world.db ≤ leftOf s.world.db+budgetOf s'.world.db := by
  rcases step_ledger hs hm with ⟨hdb,-⟩ | ⟨es,hp,-⟩
  · rw [hdb]
  · exact posting_left hp

theorem left_call (hs : Sound s) {σ : World} {w : ℕ} {m : Message} {p : Phase} {o : Oracle}
    {out : Outcome} {c : Call} {k : Except Exc c.Resp → Phase} {r : Except Exc c.Resp}
    (hw : s.workers w = .handling m p) (hv : view p = .calls c k)
    (he : exec s.world (.worker w) o c out = some (r,σ)) :
    27*leftOf σ.db+27*budgetOf s.world.db+(if isOk r then refunds p else 0) ≤
      27*leftOf s.world.db+27*budgetOf σ.db := by
  have hle : leftOf σ.db+budgetOf s.world.db ≤ leftOf s.world.db+budgetOf σ.db :=
    step_left hs (Move.call hw hv he : Move 0 _ _ _)
  by_cases hp : ∃ job started, p = .commit (.requeued job started)
  · obtain ⟨job,started,rfl⟩ := hp
    cases hv
    obtain ⟨-,rfl⟩ | ⟨-,rfl,e,rfl⟩ := exec_commit he
    · obtain ⟨hl,hb⟩ := commit_retry hs hw
      rw [hb]
      cases r with
      | ok => simp only [isOk, refunds, if_true]; omega
      | error e => simp only [isOk, Bool.false_eq_true, if_false]; omega
    · simp only [isOk, Bool.false_eq_true, if_false]
      omega
  · have hr : refunds p = 0 := by
      cases p with
      | commit site =>
        cases site with
        | requeued job started => exact absurd ⟨job,started,rfl⟩ hp
        | _ => rfl
      | _ => rfl
    rw [hr, ite_self]
    omega

/-- Every step of the system pays for its work. -/
theorem step_pays (hs : Sound s) {W R : Finset ℕ} (hW : ∀ w, workerAt l = some w → w ∈ W)
    (hR : ∀ r, requestAt l = some r → r ∈ R) (hm : Move threshold s l s') :
    potential W R s'+work s l+27*budgetOf s.world.db ≤
      potential W R s+credit s l+27*budgetOf s'.world.db := by
  have hend : ∀ {w : ℕ}, w ∈ W → potential W R (s.endWorker w) ≤ potential W R s+27 := by
    intro w hw
    have hsum := sum_rank_update workerRank s.workers hw .dead
    have hlen := requeue_length (s.world.discard (.worker w)) w
    have hready : (s.world.discard (.worker w)).ready = s.world.ready := rfl
    have hdb : (s.endWorker w).world.db = s.world.db := requeue_db _ _
    rw [hready] at hlen
    simp only [potential, hdb]
    simp only [State.endWorker, State.setWorker, workerRank] at hsum ⊢
    omega
  cases hm with
  | @deliver w i m hw hu hi =>
    have hwork : work s (.deliver w i) = 1 := rfl
    have hsum := sum_rank_update workerRank s.workers (hW w rfl) (.received m)
    have hlen := List.length_eraseIdx_add_one (List.getElem?_eq_some_iff.mp hi).1
    simp only [potential, State.setWorker, hw, workerRank] at hsum ⊢
    omega
  | @begin w m hw =>
    have hwork : work s (.begin w) = 1 := rfl
    have hsum := sum_rank_update workerRank s.workers (hW w rfl) (.handling m (start m.body))
    have hstart := rank_start m.body
    simp only [potential, State.setWorker, hw, workerRank] at hsum ⊢
    omega
  | @call w m p c k o out r σ hw hv he =>
    have hwork : work s (.call w o out) = 1 := rfl
    have hcredit : credit s (.call w o out) =
        if refused (.handling m p) out then 27 else 0 := by simp [credit, arrives, disturbs, hw]
    have hsum := sum_rank_update workerRank s.workers (hW w rfl) (.handling m (k r))
    have hrank := rank_call (m := m) hv he
    have hready := ready_call hv he
    have hleft := left_call hs hw hv he
    rw [hcredit]
    simp only [potential, State.setWorker, World.record, hw, workerRank] at hsum ⊢
    omega
  | @loop w m hw =>
    have hwork : work s (.loop w) = 1 := rfl
    have hsum := sum_rank_update workerRank s.workers (hW w rfl) .idle
    simp only [potential, State.setWorker, hw, workerRank, phaseRank] at hsum ⊢
    omega
  | @stop w hw =>
    have hwork : work s (.stop w) = 0 := rfl
    have hcredit : credit s (.stop w) = 27 := rfl
    have hdb : (s.endWorker w).world.db = s.world.db := requeue_db _ _
    have := hend (hW w rfl)
    rw [hdb]
    omega
  | @die w hw =>
    have hwork : work s (.die w) = 0 := rfl
    have hcredit : credit s (.die w) = 27 := rfl
    have hdb : (s.endWorker w).world.db = s.world.db := requeue_db _ _
    have := hend (hW w rfl)
    rw [hdb]
    omega
  | @lose w m hw hu =>
    have hwork : work s (.lose w) = 0 := rfl
    have hcredit : credit s (.lose w) = 27 := rfl
    have hlen := requeue_length s.world w
    simp only [potential, requeue_db]
    omega
  | @duplicate i m hi =>
    have hwork : work s (.duplicate i) = 0 := rfl
    have hcredit : credit s (.duplicate i) = 27 := rfl
    simp only [potential, List.length_cons]
    omega
  | inject body =>
    have hwork : work s (.inject body) = 0 := rfl
    have hcredit : credit s (.inject body) = 27 := rfl
    simp only [potential, List.length_cons]
    omega
  | @arrive q account route hq =>
    have hwork : work s (.arrive q account route) = 0 := rfl
    have hcredit : credit s (.arrive q account route) = 38 := rfl
    have hsum := sum_rank_update requestRank s.requests (hR q rfl)
      (some ⟨account,startStage account route⟩)
    have hrank := rank_startStage account route
    simp only [potential, State.setStage, hq, requestRank] at hsum ⊢
    omega
  | @serve q x c k o out r σ hq hv he =>
    have hwork : work s (.serve q o out) = 1 := rfl
    have hsum := sum_rank_update requestRank s.requests (hR q rfl) (some ⟨x.account,k r⟩)
    have hrank := rank_serve hv he
    have hready := ready_serve hv he
    have hleft := step_left hs (.serve hq hv he)
    simp only [potential, State.setStage, World.record, hq, requestRank] at hsum hleft ⊢
    omega
  | @abort q x hq =>
    have hwork : work s (.abort q) = 0 := rfl
    have hsum := sum_rank_update requestRank s.requests (hR q rfl)
      (some ⟨x.account,.crashed (.other "aborted")⟩)
    simp only [potential, State.setStage, World.discard, hq, requestRank, stageRank] at hsum ⊢
    omega
  | receive hq hw => exact le_rfl
  | upload content hu => exact le_rfl

/-- A job that a step brings into the table is inserted by the request that is
committing it. -/
theorem inserted_by (hs : Sound s) (hm : Move threshold s l s') {row : JobRow}
    (hnone : s.world.db.jobs.get row.id = none) (hrow : s'.world.db.jobs.get row.id = some row) :
    ∃ q account o out, l = .serve q o out ∧ s.requests q = some ⟨account,.commitJob row⟩ := by
  have hin : ∀ q, (s.world.commit q).db.jobs.get row.id = some row →
      .insertJob row ∈ s.world.writesOf q := by
    intro q hq
    have hiso := hs.guarded.fenced.isolated
    rcases jobs_after (hiso.own q) (hiso.ready q) hq with ⟨h,-⟩ | ⟨old,hu,hid⟩ | ⟨hi,-⟩
    · rw [hnone] at h
      cases h
    · rw [← hid, (commit_jobs_updated hs.guarded.fenced hu).1] at hnone
      cases hnone
    · exact hi
  cases l with
  | call w o out =>
    cases hm with
    | @call _ m p c k _ _ r σ hw hv he =>
      have hnew : σ.db.jobs.get row.id = some row := hrow
      by_cases hc : c = .commit
      · subst hc
        obtain ⟨site,rfl⟩ := phase_at_commit hv
        have hop := hs.opened.workers w
        rw [hw] at hop
        obtain ⟨-,rfl⟩ | ⟨-,rfl,-⟩ := exec_commit he
        · exact absurd (hin _ hnew) (worker_inserts_nothing hop)
        · cases hnone.symm.trans hnew
      · rw [(exec_effect he).db hc] at hnew
        cases hnone.symm.trans hnew
  | serve q o out =>
    cases hm with
    | @serve _ x c k _ _ r σ hx hv he =>
      have hnew : σ.db.jobs.get row.id = some row := hrow
      by_cases hc : c = .commit
      · subst hc
        have hop := hs.opened.requests q
        rw [hx] at hop
        obtain ⟨-,rfl⟩ | ⟨-,rfl,-⟩ := exec_commit he
        · have hi := hin _ hnew
          rcases stage_at_commit hv hop with hws | ⟨job,hjob,hws⟩ | ⟨_,_,_,-,hws,-⟩
          · simp [hws, -mem_writesOf] at hi
          · obtain rfl : row = job := by simpa [hws, -mem_writesOf] using hi
            obtain ⟨account,stage⟩ := x
            obtain rfl : stage = .commitJob row := hjob
            exact ⟨q,account,o,out,rfl,hx⟩
          · simp [hws, -mem_writesOf] at hi
        · cases hnone.symm.trans hnew
      · rw [(exec_effect he).db hc] at hnew
        cases hnone.symm.trans hnew
  | _ =>
    rw [(move_idle hm (by simp) (by simp)).db, hnone] at hrow
    cases hrow

/-- A step adds to the budget the attempts of the job whose commit it is. -/
theorem budget_step (hs : Sound s) (hm : Move threshold s l s') :
    budgetOf s'.world.db = budgetOf s.world.db ∨ ∃ q account row o out,
      l = .serve q o out ∧ s.requests q = some ⟨account,.commitJob row⟩ ∧
        budgetOf s'.world.db = budgetOf s.world.db+row.maxAttempts := by
  rcases step_ledger hs hm with ⟨hdb,-⟩ | ⟨es,hp,-⟩
  · exact Or.inl (by rw [hdb])
  · obtain hb | ⟨row,hnone,hrow,hb⟩ := posting_budget hp
    · exact Or.inl hb
    · obtain ⟨q,account,o,out,rfl,hq⟩ := inserted_by hs hm hnone hrow
      exact Or.inr ⟨q,account,row,o,out,rfl,hq,hb⟩

/-- What a request owes it has owed before, or it is the row just made. -/
theorem owed_serve {M : ℕ} {σ σ' : World} {q : ℕ} {o : Oracle} {out : Outcome} {x : Stage} {c : Call}
    {k : Except Exc c.Resp → Stage} {r : Except Exc c.Resp} (hM : o.maxAttempts ≤ M)
    (hv : viewStage threshold x = .calls c k) (he : exec σ (.request q) o c out = some (r,σ')) :
    owedStage M (k r) ≤ owedStage M x := by
  cases x with
  | findDocument dto => cases hv; rcases r with e | _ | document <;> simp [owedStage]
  | checkObject dto document =>
    cases hv
    rcases r with e | uploaded
    · simp [owedStage]
    · cases uploaded <;> simp [owedStage]
  | checkDepth dto document =>
    cases hv
    rcases r with e | depth
    · simp [owedStage]
    · dsimp only
      split <;> simp [owedStage]
  | insertJob dto document =>
    cases hv
    rcases r with e | job
    · simp [owedStage]
    · obtain ⟨-,-,-,rfl,-⟩ := ok_createJob he
      exact hM
  | signDownloads artifact rest done =>
    cases hv
    rcases r with e | url
    · simp [owedStage]
    · cases rest <;> simp [owedStage, signing]
  | listRows account id =>
    cases hv
    rcases r with e | rows
    · simp [owedStage]
    · cases rows <;> simp [owedStage, signing]
  | readDocument account id => cases hv; rcases r with e | _ | row <;> simp [owedStage]
  | listDocument account id => cases hv; rcases r with e | _ | row <;> simp [owedStage]
  | readJob account id => cases hv; rcases r with e | _ | row <;> simp [owedStage]
  | close sent e => cases hv; cases r <;> cases sent <;> cases e <;> simp [owedStage, leaveRequest]
  | finished => cases hv
  | crashed e => cases hv
  | _ => cases hv; cases r <;> simp [owedStage]

/-- The budget, with what the requests still owe it, grows with the requests. -/
theorem budget_pays {M : ℕ} (hs : Sound s) {R : Finset ℕ}
    (hR : ∀ r, requestAt l = some r → r ∈ R) (hok : Grants M s l) (hm : Move threshold s l s') :
    outlay M R s' ≤ outlay M R s+if arrives (s,l) then M else 0 := by
  have hbudget := budget_step hs hm
  unfold outlay
  cases hm with
  | @arrive q account route hq =>
    have hsum := sum_rank_update (owed M) s.requests (hR q rfl)
      (some ⟨account,startStage account route⟩)
    have hstart : owed M (some ⟨account,startStage account route⟩) ≤ M := by
      cases route <;> simp [owed, owedStage, startStage]
    simp only [State.setStage, arrives, hq, owed, if_true] at hsum hstart ⊢
    omega
  | @serve q x c k o out r σ hq hv he =>
    have hsum := sum_rank_update (owed M) s.requests (hR q rfl) (some ⟨x.account,k r⟩)
    have howed := owed_serve hok hv he
    obtain hb | ⟨_,account,row,_,_,hl,hq',hb⟩ := hbudget
    · rw [hb]
      simp only [State.setStage, hq, owed] at hsum ⊢
      omega
    · cases hl
      obtain rfl := Option.some.inj (hq.symm.trans hq')
      have hbefore : owed M (some ⟨account,.commitJob row⟩) = row.maxAttempts := rfl
      -- after the commit the request owes nothing
      have hafter : owed M (some ⟨account,k r⟩) = 0 := by cases hv; cases r <;> rfl
      rw [hq, hbefore, hafter] at hsum
      simp only [State.setStage, hb] at hsum ⊢
      omega
  | @abort q x hq =>
    have hsum := sum_rank_update (owed M) s.requests (hR q rfl)
      (some ⟨x.account,.crashed (.other "aborted")⟩)
    simp only [State.setStage, World.discard, owed, owedStage] at hsum ⊢
    omega
  | _ =>
    obtain hb | ⟨q,account,row,o,out,hl,-⟩ := hbudget
    · rw [hb]
      exact Nat.le_add_right _ _
    · cases hl

end Steps

def workersOf (t : List (State × Label)) : Finset ℕ := (t.filterMap (fun x => workerAt x.2)).toFinset

def requestsOf (t : List (State × Label)) : Finset ℕ :=
  (t.filterMap (fun x => requestAt x.2)).toFinset

theorem mem_workersOf {t : List (State × Label)} {x : State × Label} {w : ℕ} (hx : x ∈ t)
    (hw : workerAt x.2 = some w) : w ∈ workersOf t :=
  List.mem_toFinset.mpr (List.mem_filterMap.mpr ⟨x,hx,hw⟩)

theorem mem_requestsOf {t : List (State × Label)} {x : State × Label} {r : ℕ} (hx : x ∈ t)
    (hr : requestAt x.2 = some r) : r ∈ requestsOf t :=
  List.mem_toFinset.mpr (List.mem_filterMap.mpr ⟨x,hx,hr⟩)

theorem total_bounded {threshold : ℕ} {s : State} {t : List (State × Label)}
    (ht : Trail (step threshold) init t s) :
    total work t ≤ total credit t+27*budgetOf s.world.db := by
  have hstep : ∀ s l s', Reachable (step threshold) init s →
      ((∀ w, workerAt l = some w → w ∈ workersOf t) ∧ ∀ r, requestAt l = some r → r ∈ requestsOf t) →
      step threshold s l = some s' →
      potential (workersOf t) (requestsOf t) s'+work s l+27*budgetOf s.world.db ≤
        potential (workersOf t) (requestsOf t) s+credit s l+27*budgetOf s'.world.db :=
    fun s l s' hr hok hs => step_pays (sound_of_reachable hr) hok.1 hok.2 (step_move hs)
  have hpaid := Trail.amortized hstep ht
    (fun x hx => ⟨fun w => mem_workersOf hx,fun r => mem_requestsOf hx⟩)
  have hzero : potential (workersOf t) (requestsOf t) init = 0 := by
    simp [potential, init, workerRank, requestRank, leftOf, Tables.empty, Table.empty]
  simp only [hzero] at hpaid
  omega

/-- What the jobs of a run allow is bounded by the requests. -/
theorem budget_bounded {threshold M : ℕ} {s : State} {t : List (State × Label)}
    (ht : Trail (step threshold) init t s) (ha : Allowed (Grants M) t) :
    budgetOf s.world.db ≤ M*t.countP arrives := by
  have hstep : ∀ s l s', Reachable (step threshold) init s →
      ((∀ r, requestAt l = some r → r ∈ requestsOf t) ∧ Grants M s l) → step threshold s l = some s' →
      outlay M (requestsOf t) s'+0+0 ≤
        outlay M (requestsOf t) s+(if arrives (s,l) then M else 0)+0 :=
    fun s l s' hr hok hs => budget_pays (sound_of_reachable hr) hok.1 hok.2 (step_move hs)
  have hpaid := Trail.amortized hstep ht (fun x hx => ⟨fun r => mem_requestsOf hx,ha x hx⟩)
  have hzero : outlay M (requestsOf t) init = 0 := by
    simp [outlay, budgetOf, init, owed, Tables.empty, Table.empty]
  rw [hzero, total_ite arrives] at hpaid
  simp only [outlay] at hpaid
  omega

theorem total_work (t : List (State × Label)) : total work t = t.countP works :=
  (total_ite works 1 t).trans (Nat.one_mul _)

theorem total_credit (t : List (State × Label)) :
    total credit t = 38*t.countP arrives+27*t.countP disturbs := by
  rw [← total_ite arrives, ← total_ite disturbs, ← total_add]
  rfl

/-- In every run the calls of all processes together are bounded by what came
in from outside and by the attempts that the created jobs allow. -/
theorem work_bounded {threshold : ℕ} {s : State} {t : List (State × Label)}
    (ht : Trail (step threshold) init t s) :
    t.countP works ≤ 38*t.countP arrives+27*(t.countP disturbs+budgetOf s.world.db) := by
  have := total_bounded ht
  rw [total_work, total_credit] at this
  omega

theorem work_bounded_sample :
    (path (step 100) init claimRun).countP works ≤
      38*(path (step 100) init claimRun).countP arrives+
        27*((path (step 100) init claimRun).countP disturbs+
          budgetOf (after claimRun).world.db) :=
  work_bounded (trail_path claimRun (by decide +kernel))

end DocPipeline.Work
