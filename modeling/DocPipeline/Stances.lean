import DocPipeline.Reservations

/-!
# What a worker may rely on after its claim

The handler reads the claimed row once, from the answer of its claim, and
acts on that copy until it ends. `Holds` says for each waiting point how the
copy relates to the committed row: it is the committed row while the job is
being processed, and it may be out of date once the job has been let go.
-/

set_option autoImplicit false

namespace DocPipeline.Stances
open DocPipeline.Identifiers DocPipeline.Records DocPipeline.Database DocPipeline.Calls
open DocPipeline.Consumer DocPipeline.Routes DocPipeline.System DocPipeline.Effects
open DocPipeline.Moves DocPipeline.Answers DocPipeline.Transactions DocPipeline.Pending
open DocPipeline.Reservations KeyedTable LabelledRuns EffectProgram OpenTransactions

/-- `unsure`: the commit of the processing session or the ack after it has
failed, and the job may already be completed. `done`: the job is known to be
finished. `after`: the job may have been let go. -/
inductive Stance where
  | away
  | running (job : Uuid) (started : JobRow)
  | unsure (job : Uuid) (started : JobRow)
  | done (job : Uuid) (started : JobRow)
  | after (job : Uuid) (started : JobRow)

def Stance.claim : Stance → Option (Uuid × JobRow)
  | .away => none
  | .running job started => some (job,started)
  | .unsure job started => some (job,started)
  | .done job started => some (job,started)
  | .after job started => some (job,started)

def afterFailure (job : Uuid) (started : JobRow) : Exc → Stance
  | .jobStateConflict => .done job started
  | _ => .after job started

def stance : Phase → Stance
  | .close (.claimed job started) none => .running job started
  | .processJob job started => .running job started
  | .processDocument job started _ => .running job started
  | .processFetch job started _ _ => .running job started
  | .processParse job started _ _ _ => .running job started
  | .processPut job started _ _ _ => .running job started
  | .processArtifact job started _ _ _ => .running job started
  | .processComplete job started _ _ _ => .running job started
  | .commit (.processed job started) => .running job started
  | .rollback (.processed job started) _ => .unsure job started
  | .close (.processed job started) none => .done job started
  | .close (.processed job started) (some _) => .unsure job started
  | .ackSuccess job started => .done job started
  | .requeue job started _ => .unsure job started
  | .fail job started _ => .unsure job started
  | .commit (.requeued job started) => .running job started
  | .commit (.failed job started) => .running job started
  | .rollback (.requeued job started) e => afterFailure job started e
  | .rollback (.failed job started) e => afterFailure job started e
  | .close (.requeued job started) none => .after job started
  | .close (.requeued job started) (some e) => afterFailure job started e
  | .close (.failed job started) none => .done job started
  | .close (.failed job started) (some e) => afterFailure job started e
  | .enqueue job started => .after job started
  | _ => .away

def stanceOf : Worker → Stance
  | .handling _ p => stance p
  | _ => .away

structure Copy (db : Tables) (job : Uuid) (started row : JobRow) : Prop where
  stored : db.jobs.get job = some row
  id : started.id = job
  status : started.status = .started
  positive : 1 ≤ started.attempts
  attempts : started.attempts ≤ row.attempts
  account : row.accountId = started.accountId
  document : row.documentId = started.documentId
  budget : row.maxAttempts = started.maxAttempts

def Finished (db : Tables) (job : Uuid) : Prop :=
  ∃ row, db.jobs.get job = some row ∧ row.status.active = false

def Current (db : Tables) (job : Uuid) (started : JobRow) : Prop := db.jobs.get job = some started

def Holds (db : Tables) : Stance → Prop
  | .away => True
  | .running job started => (∃ row, Copy db job started row) ∧ Current db job started
  | .unsure job started => (∃ row, Copy db job started row) ∧
      (Current db job started ∨ Finished db job)
  | .done job started => (∃ row, Copy db job started row) ∧ Finished db job
  | .after job started => ∃ row, Copy db job started row

section Tables
variable {db : Tables} {job : Uuid} {started : JobRow} {x : Stance}

theorem Holds.copy (h : Holds db x) (hc : x.claim = some (job,started)) :
    ∃ row, Copy db job started row := by
  cases x with
  | away => cases hc
  | after j t =>
    cases hc
    exact h
  | _ =>
    cases hc
    exact h.1

theorem afterFailure_of_ne {e : Exc} (he : e ≠ .jobStateConflict) :
    afterFailure job started e = .after job started := by
  cases e <;> first | rfl | exact absurd rfl he

theorem claim_afterFailure (e : Exc) : (afterFailure job started e).claim = some (job,started) := by
  cases e <;> rfl

theorem stance_onFailure (e : Exc) :
    stance (onFailure job started e) = .unsure job started := by
  unfold onFailure
  split <;> rfl

theorem claim_onFailure (e : Exc) :
    (stance (onFailure job started e)).claim = some (job,started) := by
  rw [stance_onFailure]
  rfl

end Tables

theorem claim_rollback {site : Site} {e : Exc} {x : Uuid × JobRow}
    (hx : (stance (.rollback site e)).claim = some x) : (stance (.commit site)).claim = some x := by
  cases site with
  | processed job started => exact hx
  | requeued job started => exact (claim_afterFailure e).symm.trans hx
  | failed job started => exact (claim_afterFailure e).symm.trans hx
  | _ => cases hx

theorem claim_rolled {site : Site} {e e' : Exc} {x : Uuid × JobRow}
    (hx : (stance (.close site (some e))).claim = some x) :
    (stance (.rollback site e')).claim = some x := by
  cases site with
  | processed job started => exact hx
  | requeued job started => exact (claim_afterFailure e').trans ((claim_afterFailure e).symm.trans hx)
  | failed job started => exact (claim_afterFailure e').trans ((claim_afterFailure e).symm.trans hx)
  | _ => cases hx

theorem claim_leave {site : Site} {e : Option Exc} {x : Uuid × JobRow}
    (hx : (stance (leave site e)).claim = some x) : (stance (.close site e)).claim = some x := by
  cases site with
  | processed job started =>
    cases e with
    | none => exact hx
    | some e => exact (claim_onFailure e).symm.trans hx
  | claimed job started => cases e <;> exact hx
  | requeued job started =>
    rcases e with _ | e
    · exact hx
    · cases e <;> cases hx
  | failed job started =>
    rcases e with _ | e
    · cases hx
    · cases e <;> cases hx
  | _ => cases e <;> cases hx

theorem claim_close {site : Site} {e : Exc} {e' : Option Exc} {x : Uuid × JobRow}
    (hx : (stance (.close site (some e))).claim = some x) :
    (stance (.close site e')).claim = some x := by
  have hsite : ∀ job started, (site = .requeued job started ∨ site = .failed job started) →
      (stance (.close site e')).claim = some (job,started) := by
    rintro job started (rfl | rfl) <;> cases e' <;> first | rfl | exact claim_afterFailure _
  cases site with
  | processed job started => cases e' <;> exact hx
  | requeued job started =>
    exact (hsite job started (Or.inl rfl)).trans ((claim_afterFailure e).symm.trans hx)
  | failed job started =>
    exact (hsite job started (Or.inr rfl)).trans ((claim_afterFailure e).symm.trans hx)
  | _ => cases hx

/-- After a call the worker has the claim it had before, no claim, or the one
it has just committed. -/
theorem claim_call {p : Phase} {c : Call} {k : Except Exc c.Resp → Phase} {x : Uuid × JobRow}
    (hv : view p = .calls c k) (r : Except Exc c.Resp) (hx : (stance (k r)).claim = some x) :
    (stance p).claim = some x ∨
      (p = .commit (.claimed x.1 x.2) ∧ k r = .close (.claimed x.1 x.2) none) := by
  cases p with
  | returned => cases hv
  | raised d e => cases hv
  | commit site =>
    cases hv
    rcases r with e | _
    · exact Or.inl (claim_rollback hx)
    · cases site with
      | claimed job started =>
        cases hx
        exact Or.inr ⟨rfl,rfl⟩
      | _ => exact Or.inl hx
  | rollback site e =>
    cases hv
    cases r <;> exact Or.inl (claim_rolled hx)
  | close site e =>
    cases hv
    rcases r with e' | _
    · exact Or.inl (claim_close (claim_leave hx))
    · exact Or.inl (claim_leave hx)
  | lookup job =>
    cases hv
    rcases r with e | _ | row
    · cases hx
    · cases hx
    · dsimp only at hx
      split at hx <;> cases hx
  | claim job =>
    cases hv
    rcases r with e | started
    · cases e <;> cases hx
    · cases hx
  | ackSuccess job started =>
    cases hv
    rcases r with e | _
    · exact Or.inl ((claim_onFailure e).symm.trans hx)
    · cases hx
  | requeue | fail =>
    cases hv
    rcases r with e | _
    · exact Or.inl ((claim_afterFailure e).symm.trans hx)
    · exact Or.inl hx
  | enqueue job started =>
    cases hv
    rcases r with e | _
    · cases e <;> cases hx
    · cases hx
  | processJob job started =>
    cases hv
    rcases r with e | _ | row <;> exact Or.inl hx
  | processDocument job started row =>
    cases hv
    rcases r with e | _ | document <;> exact Or.inl hx
  | _ =>
    cases hv
    cases r <;> exact Or.inl hx

section Own
variable {σ σ' : World} {w : ℕ} {o : Oracle} {out : Outcome} {p : Phase} {c : Call}
  {k : Except Exc c.Resp → Phase} {r : Except Exc c.Resp} {job : Uuid} {started : JobRow}

/-- The rows after a commit of `p`, from the statements of its transaction. -/
theorem commit_jobs_updated {q : Proc} (hf : Fenced σ) {old new : JobRow}
    (hu : .updateJob old new ∈ σ.writesOf q) :
    σ.db.jobs.get old.id = some old ∧ Replaces old new ∧
      (σ.commit q).db.jobs.get old.id = some new := by
  have hr := hf.isolated.ready q _ hu
  exact ⟨hr.1,hr.2,jobs_updated (hf.isolated.own q) (hf.isolated.ready q) hu⟩

theorem commit_jobs_evolve {q : Proc} (hf : Fenced σ) {id : Uuid} {row : JobRow}
    (hrow : σ.db.jobs.get id = some row) :
    ∃ row', (σ.commit q).db.jobs.get id = some row' ∧ (row' = row ∨ Replaces row row') :=
  jobs_evolve (hf.isolated.own q) (hf.isolated.ready q) hrow

theorem Copy.evolve {db db' : Tables} {row row' : JobRow} (h : Copy db job started row)
    (hrow : db'.jobs.get job = some row') (hr : row' = row ∨ Replaces row row') :
    Copy db' job started row' := by
  rcases hr with rfl | hr
  · exact ⟨hrow,h.id,h.status,h.positive,h.attempts,h.account,h.document,h.budget⟩
  · exact ⟨hrow,h.id,h.status,h.positive,h.attempts.trans hr.attempts_le,hr.account.trans h.account,
      hr.document.trans h.document,hr.budget.trans h.budget⟩

theorem Copy.commit {q : Proc} (hf : Fenced σ) (h : ∃ row, Copy σ.db job started row) :
    ∃ row, Copy (σ.commit q).db job started row := by
  obtain ⟨row,h⟩ := h
  obtain ⟨row',hrow,hr⟩ := commit_jobs_evolve (q := q) hf h.stored
  exact ⟨row',h.evolve hrow hr⟩

theorem Copy.refl {db : Tables} (h : db.jobs.get job = some started)
    (hs : started.status = .started) (hp : 1 ≤ started.attempts) : Copy db job started started :=
  ⟨h,Table.key_of_get h,hs,hp,le_rfl,rfl,rfl,rfl⟩

theorem Finished.commit {q : Proc} (hf : Fenced σ) (h : Finished σ.db job) :
    Finished (σ.commit q).db job := by
  obtain ⟨row,hrow,ha⟩ := h
  obtain ⟨row',hrow',rfl | hr⟩ := commit_jobs_evolve (q := q) hf hrow
  · exact ⟨row',hrow',ha⟩
  · rw [active_of_edge hr.edge] at ha
    cases ha

theorem holds_rolled {db : Tables} {site : Site} {e : Exc} (e' : Exc)
    (he : e' = e ∨ e' ≠ .jobStateConflict) (h : Holds db (stance (.rollback site e))) :
    Holds db (stance (.close site (some e'))) := by
  have hafter : ∀ job started, Holds db (afterFailure job started e) →
      Holds db (afterFailure job started e') := by
    intro job started h
    rcases he with rfl | he
    · exact h
    · rw [afterFailure_of_ne he]
      exact h.copy (claim_afterFailure e)
  cases site with
  | processed job started => exact h
  | requeued job started => exact hafter _ _ h
  | failed job started => exact hafter _ _ h
  | _ => trivial

theorem holds_leave {db : Tables} {site : Site} {e : Option Exc}
    (h : Holds db (stance (.close site e))) : Holds db (stance (leave site e)) := by
  cases site with
  | processed job started =>
    cases e with
    | none => exact h
    | some e =>
      rw [show leave _ _ = onFailure job started e from rfl, stance_onFailure]
      exact h
  | claimed job started => cases e <;> exact h
  | requeued job started =>
    rcases e with _ | e
    · exact h
    · cases e <;> trivial
  | failed job started =>
    rcases e with _ | e
    · trivial
    · cases e <;> trivial
  | _ => cases e <;> trivial

theorem holds_leave_error {db : Tables} {site : Site} {exc : Option Exc} (e : Exc)
    (h : Holds db (stance (.close site exc))) : Holds db (stance (leave site (some e))) := by
  cases site with
  | processed job started =>
    rw [show leave _ _ = onFailure job started e from rfl, stance_onFailure]
    cases exc with
    | none => exact ⟨h.1,Or.inr h.2⟩
    | some _ => exact h
  | requeued job started => cases e <;> trivial
  | failed job started => cases e <;> trivial
  | _ => trivial

/-- A commit of one of the handler's sessions. -/
theorem holds_commit {site : Site} (hf : Fenced σ) (ho : opened (.commit site)
      (σ.writesOf (.worker w))) (h : Holds σ.db (stance (.commit site)))
    {r : Except Exc Unit} (he : exec σ (.worker w) o .commit out = some (r,σ')) :
    Holds σ'.db (stance (match r with
      | .ok _ => .close site none
      | .error e => .rollback site e)) := by
  have hne : ∀ e, r = .error e → e ≠ .jobStateConflict := by
    rintro e rfl
    exact error_ne_conflict he (by simp)
  have htook := exec_commit he
  cases site with
  | claimed job started =>
    cases r with
    | error e => trivial
    | ok _ =>
      obtain ⟨old,hws,now,again,rfl,-,rfl⟩ := ho
      obtain ⟨-,rfl⟩ | ⟨-,-,e,he⟩ := htook
      · obtain ⟨-,-,hget⟩ := commit_jobs_updated hf (by rw [hws]; exact List.mem_singleton_self _)
        exact ⟨⟨_,Copy.refl hget (by simp) (by simp)⟩,hget⟩
      · cases he
  | processed job started =>
    obtain ⟨a,old,new,hws,now,again,rfl,-,rfl⟩ := ho
    have hfin : Finished (σ.commit (.worker w)).db old.id := by
      have hu : Write.updateJob old (updated .completed none now again old) ∈
          σ.writesOf (.worker w) := by simp [hws, -mem_writesOf]
      obtain ⟨-,-,hget⟩ := commit_jobs_updated hf hu
      exact ⟨_,hget,by simp [JobStatus.active]⟩
    cases r with
    | ok _ =>
      obtain ⟨-,rfl⟩ | ⟨-,-,e,he⟩ := htook
      · exact ⟨Copy.commit hf h.1,hfin⟩
      · cases he
    | error e =>
      obtain ⟨-,rfl⟩ | ⟨-,rfl,-⟩ := htook
      · exact ⟨Copy.commit hf h.1,Or.inr hfin⟩
      · exact ⟨h.1,Or.inl h.2⟩
  | requeued job started =>
    have hcopy : ∃ row, Copy σ'.db job started row := by
      obtain ⟨-,rfl⟩ | ⟨-,rfl,-⟩ := htook
      · exact Copy.commit hf h.1
      · exact h.1
    cases r with
    | ok _ => exact hcopy
    | error e =>
      change Holds σ'.db (afterFailure job started e)
      rw [afterFailure_of_ne (hne e rfl)]
      exact hcopy
  | failed job started =>
    have hcopy : ∃ row, Copy σ'.db job started row := by
      obtain ⟨-,rfl⟩ | ⟨-,rfl,-⟩ := htook
      · exact Copy.commit hf h.1
      · exact h.1
    cases r with
    | ok _ =>
      refine ⟨hcopy,?_⟩
      obtain ⟨old,new,hws,rfl,-,text,now,again,rfl⟩ := ho
      obtain ⟨-,rfl⟩ | ⟨-,-,e,he⟩ := htook
      · obtain ⟨-,-,hget⟩ := commit_jobs_updated hf (by rw [hws]; exact List.mem_singleton_self _)
        exact ⟨_,hget,by simp [JobStatus.active]⟩
      · cases he
    | error e =>
      change Holds σ'.db (afterFailure job started e)
      rw [afterFailure_of_ne (hne e rfl)]
      exact hcopy
  | _ => cases r <;> trivial

/-- A status update of `_handle_failure`. -/
theorem holds_release {status : JobStatus} {err : Option String}
    (h : Holds σ.db (.unsure job started)) {r : Except Exc JobRow}
    (he : exec σ (.worker w) o (.updateStatus job status .started err) out = some (r,σ')) :
    Holds σ'.db (match r with
      | .ok _ => .running job started
      | .error e => afterFailure job started e) := by
  obtain ⟨hcopy,hrow⟩ := h
  rcases exec_updateStatus he with ⟨old,now,again,-,rfl,-,hget,hst,rfl⟩ | ⟨-,rfl,rfl,hno⟩ |
    ⟨f,-,rfl,rfl⟩
  · refine ⟨hcopy,hrow.resolve_right ?_⟩
    rintro ⟨row,hrow,ha⟩
    obtain rfl := Option.some.inj (hget.symm.trans hrow)
    rw [hst] at ha
    cases ha
  · obtain ⟨row,hc⟩ := hcopy
    refine ⟨⟨row,hc⟩,hrow.resolve_left ?_⟩
    intro hcur
    exact hno started hcur hc.status
  · have hne := fault_ne_conflict (.updateStatus job status .started err) f
    change Holds σ.db (afterFailure job started _)
    rw [afterFailure_of_ne hne]
    exact hcopy

/-- A call of the handler keeps what its waiting point says about the row. -/
theorem holds_call (hf : Fenced σ) (ho : opened p (σ.writesOf (.worker w)))
    (h : Holds σ.db (stance p)) (hv : view p = .calls c k)
    (he : exec σ (.worker w) o c out = some (r,σ')) : Holds σ'.db (stance (k r)) := by
  by_cases hc : c = .commit
  · subst hc
    cases p with
    | commit site =>
      cases hv
      cases r <;> exact holds_commit hf ho h he
    | returned => cases hv
    | raised d e => cases hv
    | _ => cases hv
  · have hdb : σ'.db = σ.db := (exec_effect he).db hc
    cases p with
    | returned => cases hv
    | raised d e => cases hv
    | commit site =>
      cases hv
      exact absurd rfl hc
    | rollback site e =>
      cases hv
      rw [hdb]
      cases r with
      | ok _ => exact holds_rolled e (Or.inl rfl) h
      | error e' => exact holds_rolled e' (Or.inr (error_ne_conflict he (by simp))) h
    | close site e =>
      cases hv
      rw [hdb]
      cases r with
      | ok _ => exact holds_leave h
      | error e' => exact holds_leave_error e' h
    | lookup job =>
      cases hv
      rcases r with e | _ | row
      · trivial
      · trivial
      · dsimp only
        split <;> trivial
    | claim job =>
      cases hv
      rcases r with e | started
      · cases e <;> trivial
      · trivial
    | ackSuccess job started =>
      cases hv
      rw [hdb]
      rcases r with e | _
      · dsimp only
        rw [stance_onFailure]
        exact ⟨h.1,Or.inr h.2⟩
      · trivial
    | requeue | fail =>
      cases hv
      cases r <;> exact holds_release h he
    | enqueue job started =>
      cases hv
      rcases r with e | _
      · cases e <;> trivial
      · trivial
    | processJob | processDocument =>
      cases hv
      rw [hdb]
      rcases r with e | _ | row
      · exact ⟨h.1,Or.inl h.2⟩
      · exact ⟨h.1,Or.inl h.2⟩
      · exact h
    | ackPoison | ackDrop | nack | ackFailure => cases hv; cases r <;> trivial
    | _ =>
      cases hv
      rw [hdb]
      rcases r with e | _
      · exact ⟨h.1,Or.inl h.2⟩
      · exact h

/-- Only a claim updates a queued job; the other updates are made by a worker
that is running the job. -/
theorem update_at_commit {site : Site} {ws : List Write} {old new : JobRow}
    (ho : opened (.commit site) ws) (hu : .updateJob old new ∈ ws) :
    (site = .claimed old.id new ∧ old.status = .queued) ∨
      (old.status = .started ∧ ∃ started, stance (.commit site) = .running old.id started) := by
  cases commit_updates ho hu with
  | claimed now again hst => exact Or.inl ⟨rfl,hst⟩
  | processed started now again hst => exact Or.inr ⟨hst,started,rfl⟩
  | requeued started text now again hst => exact Or.inr ⟨hst,started,rfl⟩
  | failed started text now again hst => exact Or.inr ⟨hst,started,rfl⟩

end Own

end DocPipeline.Stances
