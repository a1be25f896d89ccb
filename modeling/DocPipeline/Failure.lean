import DocPipeline.Abandonment

/-!
# Jobs left behind by a failed failure handler

A run of the handler that has claimed its job lets it go again unless the
status update of `_handle_failure` or the commit of that update fails. The
exception then leaves the handler with the row still STARTED, and nothing
changes that row any more. Which of the two happens is decided by single
steps of the worker, so a run lets its job go exactly when none of its steps
is of that kind.
-/

set_option autoImplicit false

namespace DocPipeline.Failure
open DocPipeline.Identifiers DocPipeline.Records DocPipeline.Database DocPipeline.Calls
open DocPipeline.Consumer DocPipeline.Routes DocPipeline.System DocPipeline.Moves
open DocPipeline.Effects DocPipeline.Answers DocPipeline.Transactions DocPipeline.Pending
open DocPipeline.Reservations DocPipeline.Stances DocPipeline.Engagement DocPipeline.Knowledge
open DocPipeline.Ledger DocPipeline.Bookkeeping DocPipeline.Exclusion DocPipeline.Publication
open DocPipeline.Budget DocPipeline.Tokens DocPipeline.Abandonment LabelledRuns EffectProgram

def ended : Worker → Bool
  | .handling _ .returned => true
  | .handling _ (.raised _ _) => true
  | _ => false

def Freed (db : Tables) (job : Uuid) (started : JobRow) : Prop :=
  ∃ row, db.jobs.get job = some row ∧
    (started.attempts = row.attempts ∧ row.status ≠ .started ∨ started.attempts < row.attempts)

def isStarted (db : Tables) (job : Uuid) : Bool :=
  (db.jobs.get job).any fun row => row.status = .started

/-- A call does not fail to release the job: the update of `_handle_failure`
is carried out unless the job has been finished before, and so is the commit
of that update. -/
def Releases (db : Tables) (out : Outcome) : Phase → Prop
  | .requeue job _ _ => out = .ok ∨ isStarted db job = false
  | .fail job _ _ => out = .ok ∨ isStarted db job = false
  | .commit (.requeued _ _) => Outcome.took out = true
  | .commit (.failed _ _) => Outcome.took out = true
  | _ => True

def Effective (w : ℕ) (s : State) : Label → Prop
  | .call v _ out => ∀ m p, v = w → s.workers w = .handling m p → Releases s.world.db out p
  | _ => True

def claimAt : Phase → Option (Uuid × JobRow)
  | .close (.claimed _ _) _ => none
  | p => (stance p).claim

def final : Phase → Bool
  | .ackFailure | .returned => true
  | .raised _ _ => true
  | _ => false

def loose (p : Phase) : Prop :=
  (∃ job started, stance p = .done job started) ∨ ∃ job started, stance p = .after job started

section Rows
variable {threshold : ℕ} {s s' : State} {l : Label} {job : Uuid} {started : JobRow}

theorem Freed.step (hs : Sound s) (hm : Move threshold s l s') (h : Freed s.world.db job started) :
    Freed s'.world.db job started := by
  obtain ⟨row,hrow,hr⟩ := h
  obtain ⟨row',hrow',rfl | hrep⟩ := step_evolve hs hm hrow
  · exact ⟨row',hrow',hr⟩
  · refine ⟨row',hrow',Or.inr ?_⟩
    have hn := hrep.attempts
    rcases hr with ⟨ha,hst⟩ | hlt
    · -- the only edge out of a released row is a new claim
      have hnew : row'.status = .started := by
        have he := hrep.edge
        cases ho : row.status <;> cases hx : row'.status <;> simp [ho, hx, edge] at he hst ⊢
      rw [hnew] at hn
      simp only [if_true] at hn
      omega
    · have := hrep.attempts_le
      omega

theorem freed_of_finished {db : Tables} {row : JobRow} (hc : Copy db job started row)
    (hf : Finished db job) : Freed db job started := by
  obtain ⟨row',hrow',ha⟩ := hf
  obtain rfl := Option.some.inj (hc.stored.symm.trans hrow')
  refine ⟨row,hrow',?_⟩
  rcases hc.attempts.lt_or_eq with hlt | heq
  · exact Or.inr hlt
  · refine Or.inl ⟨heq,fun hst => ?_⟩
    rw [hst] at ha
    cases ha

theorem isStarted_of_current {db : Tables} (hc : Current db job started)
    (hst : started.status = .started) : isStarted db job = true := by
  simp [isStarted, show db.jobs.get job = some started from hc, hst]

/-- The released row after the commit of `_handle_failure`. -/
theorem freed_of_commit {σ : World} {w : ℕ} (hf : Fenced σ) {status : JobStatus} {old new : JobRow}
    (hws : σ.writesOf (.worker w) = [.updateJob old new]) (hrel : Released job status old new)
    (hne : status ≠ .started) (hcur : Current σ.db job started) :
    Freed (σ.commit (.worker w)).db job started := by
  obtain ⟨rfl,-,text,now,again,rfl⟩ := hrel
  obtain ⟨hget,-,hnew⟩ := commit_jobs_updated hf (by rw [hws]; exact List.mem_singleton_self _)
  obtain rfl := Option.some.inj (hget.symm.trans hcur)
  exact ⟨_,hnew,Or.inl ⟨by simp [hne],by simpa using hne⟩⟩

end Rows

section Own
variable {σ σ' : World} {w : ℕ} {o : Oracle} {out : Outcome} {p : Phase} {c : Call}
  {k : Except Exc c.Resp → Phase} {r : Except Exc c.Resp} {job : Uuid} {started : JobRow}

theorem claimAt_onFailure (e : Exc) : claimAt (onFailure job started e) = some (job,started) := by
  unfold onFailure
  split <;> rfl

theorem not_loose_onFailure (e : Exc) : ¬ loose (onFailure job started e) := by
  unfold loose
  rw [stance_onFailure]
  simp

theorem final_leave {site : Site} (hs : site = .requeued job started ∨ site = .failed job started)
    (e : Exc) : final (leave site (some e)) = true := by
  rcases hs with rfl | rfl <;> cases e <;> rfl

/-- Where a waiting point of the attempt stands with its job. -/
def Standing (db : Tables) (job : Uuid) (started : JobRow) (p : Phase) : Prop :=
  (claimAt p = some (job,started) ∧ (loose p → Freed db job started)) ∨
    (final p = true ∧ Freed db job started)

theorem standing_onFailure (db : Tables) (e : Exc) :
    Standing db job started (onFailure job started e) :=
  Or.inl ⟨claimAt_onFailure e,fun h => absurd h (not_loose_onFailure e)⟩

theorem not_loose_running {p : Phase} (h : stance p = .running job started) : ¬ loose p := by
  unfold loose
  rw [h]
  simp

theorem not_loose_unsure {p : Phase} (h : stance p = .unsure job started) : ¬ loose p := by
  unfold loose
  rw [h]
  simp

theorem standing_running {db : Tables} {p : Phase} (ha : claimAt p = some (job,started))
    (h : stance p = .running job started) : Standing db job started p :=
  Or.inl ⟨ha,fun hl => absurd hl (not_loose_running h)⟩

theorem standing_unsure {db : Tables} {p : Phase} (ha : claimAt p = some (job,started))
    (h : stance p = .unsure job started) : Standing db job started p :=
  Or.inl ⟨ha,fun hl => absurd hl (not_loose_unsure h)⟩

theorem standing_freed {db : Tables} {p : Phase} (ha : claimAt p = some (job,started) ∨ final p = true)
    (h : Freed db job started) : Standing db job started p := by
  rcases ha with ha | ha
  · exact Or.inl ⟨ha,fun _ => h⟩
  · exact Or.inr ⟨ha,h⟩

theorem standing_processing {db : Tables} (hp : processing p = true)
    (hc : claimAt p = some (job,started)) (hv : view p = .calls c k) :
    Standing db job started (k r) := by
  cases p with
  | processJob | processDocument =>
    cases hv
    obtain ⟨rfl,rfl⟩ := Prod.mk.inj (Option.some.inj hc)
    rcases r with e | _ | y
    · exact standing_unsure rfl rfl
    · exact standing_unsure rfl rfl
    · exact standing_running rfl rfl
  | _ =>
    first
      | (cases hp; done)
      | cases hv
        obtain ⟨rfl,rfl⟩ := Prod.mk.inj (Option.some.inj hc)
        cases r <;> first | exact standing_unsure rfl rfl | exact standing_running rfl rfl

/-- The update of `_handle_failure` is carried out, or it fails on a job that
has been finished before. -/
theorem updated_or_freed {status : JobStatus} {err : Option String} {r : Except Exc JobRow}
    (hok : out = .ok ∨ isStarted σ.db job = false)
    (hh : Holds σ.db (.unsure job started))
    (he : exec σ (.worker w) o (.updateStatus job status .started err) out = some (r,σ')) :
    (∃ new, r = .ok new) ∨ ((∃ e, r = .error e) ∧ Freed σ.db job started) := by
  obtain ⟨⟨row,hcopy⟩,hrow⟩ := hh
  rcases exec_updateStatus he with ⟨old,now,again,-,rfl,-⟩ | ⟨-,rfl,-,hno⟩ | ⟨f,rfl,rfl,-⟩
  · exact Or.inl ⟨_,rfl⟩
  · refine Or.inr ⟨⟨_,rfl⟩,freed_of_finished hcopy (hrow.resolve_left ?_)⟩
    exact fun hcur => hno started hcur hcopy.status
  · refine Or.inr ⟨⟨_,rfl⟩,freed_of_finished hcopy (hrow.resolve_left ?_)⟩
    intro hcur
    rw [isStarted_of_current hcur hcopy.status] at hok
    rcases hok with hok | hok <;> cases hok

/-- The commit of that update lets the job go. -/
theorem standing_released (hf : Fenced σ) {status : JobStatus} {old new : JobRow} {q : Phase}
    {r : Except Exc Unit} (hws : σ.writesOf (.worker w) = [.updateJob old new])
    (hrel : Released job status old new) (hne : status ≠ .started) (hcur : Current σ.db job started)
    (he : exec σ (.worker w) o .commit out = some (r,σ')) (hok : Outcome.took out = true)
    (hq : claimAt q = some (job,started)) : Standing σ'.db job started q := by
  obtain ⟨-,rfl⟩ | ⟨hno,-⟩ := exec_commit he
  · exact standing_freed (Or.inl hq) (freed_of_commit hf hws hrel hne hcur)
  · rw [hok] at hno
    cases hno

theorem standing_commit {site : Site} (hf : Fenced σ)
    (ho : opened (.commit site) (σ.writesOf (.worker w))) (hh : Holds σ.db (stance (.commit site)))
    (hc : claimAt (.commit site) = some (job,started)) (hv : view (.commit site) = .calls c k)
    (he : exec σ (.worker w) o c out = some (r,σ')) (hok : Releases σ.db out (.commit site)) :
    Standing σ'.db job started (k r) := by
  cases hv
  cases site with
  | processed j a =>
    obtain ⟨rfl,rfl⟩ := Prod.mk.inj (Option.some.inj hc)
    have hnew := holds_commit hf ho hh he
    cases r with
    | ok _ =>
      obtain ⟨⟨row,hcopy⟩,hfin⟩ := hnew
      exact standing_freed (Or.inl rfl) (freed_of_finished hcopy hfin)
    | error e => exact standing_unsure rfl rfl
  | requeued | failed =>
    obtain ⟨rfl,rfl⟩ := Prod.mk.inj (Option.some.inj hc)
    obtain ⟨old,new,hws,hrel⟩ := ho
    refine standing_released hf hws hrel (by simp) hh.2 he hok ?_
    cases r with
    | ok _ => rfl
    | error e => exact claim_afterFailure e
  | _ => cases hc

/-- A session of `_handle_failure` that an exception leaves. -/
theorem claimAt_releasing {site : Site} {j : Uuid} {a : JobRow}
    (hs : site = .requeued j a ∨ site = .failed j a) (e : Exc) :
    claimAt (.rollback site e) = some (j,a) ∧ claimAt (.close site (some e)) = some (j,a) ∧
      loose (.rollback site e) ∧ loose (.close site (some e)) := by
  have hl : (∃ job started, afterFailure j a e = .done job started) ∨
      ∃ job started, afterFailure j a e = .after job started := by
    cases e <;> simp [afterFailure]
  rcases hs with rfl | rfl
  · exact ⟨claim_afterFailure e,claim_afterFailure e,hl,hl⟩
  · exact ⟨claim_afterFailure e,claim_afterFailure e,hl,hl⟩

theorem standing_rollback {db : Tables} {site : Site} {e : Exc}
    (hc : claimAt (.rollback site e) = some (job,started))
    (hl : loose (.rollback site e) → Freed db job started)
    (hv : view (.rollback site e) = .calls c k) : Standing db job started (k r) := by
  cases hv
  have hrel : ∀ {j a}, site = .requeued j a ∨ site = .failed j a →
      ∀ e', Standing db job started (.close site (some e')) := by
    intro j a hs e'
    obtain ⟨hat,-,hloose,-⟩ := claimAt_releasing hs e
    obtain ⟨rfl,rfl⟩ := Prod.mk.inj (Option.some.inj (hat.symm.trans hc))
    exact standing_freed (Or.inl (claimAt_releasing hs e').2.1) (hl hloose)
  cases site with
  | processed j a =>
    obtain ⟨rfl,rfl⟩ := Prod.mk.inj (Option.some.inj hc)
    cases r <;> exact standing_unsure rfl rfl
  | requeued j a => cases r <;> exact hrel (Or.inl rfl) _
  | failed j a => cases r <;> exact hrel (Or.inr rfl) _
  | _ => cases hc

theorem standing_close {db : Tables} {site : Site} {e : Option Exc}
    (hc : claimAt (.close site e) = some (job,started))
    (hl : loose (.close site e) → Freed db job started)
    (hv : view (.close site e) = .calls c k) : Standing db job started (k r) := by
  cases hv
  have hrel : ∀ {j a e₀}, site = .requeued j a ∨ site = .failed j a → e = some e₀ →
      ∀ e', Standing db job started (leave site (some e')) := by
    rintro j a e₀ hs rfl e'
    obtain ⟨-,hat,-,hloose⟩ := claimAt_releasing hs e₀
    obtain ⟨rfl,rfl⟩ := Prod.mk.inj (Option.some.inj (hat.symm.trans hc))
    exact standing_freed (Or.inr (final_leave hs e')) (hl hloose)
  cases site with
  | processed j a =>
    have heq : (j,a) = (job,started) := by cases e <;> exact Option.some.inj hc
    obtain ⟨rfl,rfl⟩ := Prod.mk.inj heq
    rcases r with e' | _
    · exact standing_onFailure _ e'
    · cases e with
      | some e => exact standing_onFailure _ e
      | none => exact standing_freed (Or.inl rfl) (hl (Or.inl ⟨j,a,rfl⟩))
  | requeued j a =>
    cases e with
    | some e => cases r <;> exact hrel (Or.inl rfl) rfl _
    | none =>
      obtain ⟨rfl,rfl⟩ := Prod.mk.inj (Option.some.inj hc)
      have hfree := hl (Or.inr ⟨j,a,rfl⟩)
      rcases r with e' | _
      · exact standing_freed (Or.inr (final_leave (Or.inl rfl) e')) hfree
      · exact standing_freed (Or.inl rfl) hfree
  | failed j a =>
    cases e with
    | some e => cases r <;> exact hrel (Or.inr rfl) rfl _
    | none =>
      obtain ⟨rfl,rfl⟩ := Prod.mk.inj (Option.some.inj hc)
      have hfree := hl (Or.inl ⟨j,a,rfl⟩)
      rcases r with e' | _
      · exact standing_freed (Or.inr (final_leave (Or.inr rfl) e')) hfree
      · exact standing_freed (Or.inr rfl) hfree
  | _ => cases e <;> cases hc

/-- A call by which the worker does not fail to release its job. -/
theorem standing_call (hf : Fenced σ) (ho : opened p (σ.writesOf (.worker w)))
    (hh : Holds σ.db (stance p)) (hc : claimAt p = some (job,started))
    (hl : loose p → Freed σ.db job started) (hv : view p = .calls c k)
    (he : exec σ (.worker w) o c out = some (r,σ'))
    (hok : Releases σ.db out p) : Standing σ'.db job started (k r) := by
  have hdb : c ≠ .commit → σ'.db = σ.db := fun hne => (exec_effect he).db hne
  cases p with
  | commit site => exact standing_commit hf ho hh hc hv he hok
  | rollback site e => exact standing_rollback hc (by rwa [hdb (by cases hv; simp)]) hv
  | close site e => exact standing_close hc (by rwa [hdb (by cases hv; simp)]) hv
  | ackSuccess j a =>
    cases hv
    obtain ⟨rfl,rfl⟩ := Prod.mk.inj (Option.some.inj hc)
    rw [hdb (by simp)]
    rcases r with e | _
    · exact standing_onFailure _ e
    · exact standing_freed (Or.inr rfl) (hl (Or.inl ⟨j,a,rfl⟩))
  | requeue | fail =>
    cases hv
    obtain ⟨rfl,rfl⟩ := Prod.mk.inj (Option.some.inj hc)
    rw [hdb (by simp)]
    rcases updated_or_freed hok hh he with ⟨new,rfl⟩ | ⟨⟨e,rfl⟩,hfree⟩
    · exact standing_running rfl rfl
    · exact standing_freed (Or.inl (claim_afterFailure e)) hfree
  | enqueue j a =>
    cases hv
    obtain ⟨rfl,rfl⟩ := Prod.mk.inj (Option.some.inj hc)
    rw [hdb (by simp)]
    refine standing_freed (Or.inr ?_) (hl (Or.inr ⟨j,a,rfl⟩))
    rcases r with e | _
    · cases e <;> rfl
    · rfl
  | _ => first | exact standing_processing rfl hc hv | cases hc

def falling (job : Uuid) (started : JobRow) : Phase → Prop
  | .rollback site e => (site = .requeued job started ∨ site = .failed job started) ∧
      e ≠ .jobStateConflict
  | .close site (some e) => (site = .requeued job started ∨ site = .failed job started) ∧
      e ≠ .jobStateConflict
  | .raised dropped _ => dropped = false
  | _ => False

theorem falling_leave {site : Site} {e : Exc}
    (hs : site = .requeued job started ∨ site = .failed job started)
    (he : e ≠ .jobStateConflict) : falling job started (leave site (some e)) := by
  rcases hs with rfl | rfl <;> cases e <;> first | rfl | exact absurd rfl he

theorem falling_call (h : falling job started p) (hv : view p = .calls c k)
    (he : exec σ (.worker w) o c out = some (r,σ')) :
    c ≠ .commit ∧ falling job started (k r) := by
  cases p with
  | rollback site e =>
    cases hv
    refine ⟨by simp,?_⟩
    cases r with
    | ok _ => exact h
    | error e' => exact ⟨h.1,error_ne_conflict he (by simp)⟩
  | close site e =>
    cases e with
    | none => cases h
    | some e =>
      cases hv
      refine ⟨by simp,?_⟩
      cases r with
      | ok _ => exact falling_leave h.1 h.2
      | error e' => exact falling_leave h.1 (error_ne_conflict he (by simp))
  | raised d e => cases hv
  | _ => cases h

/-- A call that fails to release a started job. -/
theorem falling_of_refused (hh : Holds σ.db (stance p)) (hc : claimAt p = some (job,started))
    (hv : view p = .calls c k) (he : exec σ (.worker w) o c out = some (r,σ'))
    (hno : ¬ Releases σ.db out p) :
    falling job started (k r) ∧ Current σ.db job started ∧ started.status = .started ∧
      σ'.db = σ.db := by
  have hrelease : ∀ {j status err} {r : Except Exc JobRow},
      ¬ (out = .ok ∨ isStarted σ.db j = false) → Holds σ.db (.unsure j started) →
      exec σ (.worker w) o (.updateStatus j status .started err) out = some (r,σ') →
      ∃ e, r = .error e ∧ e ≠ .jobStateConflict ∧ Current σ.db j started ∧
        started.status = .started ∧ σ'.db = σ.db := by
    rintro j status err r hout ⟨⟨row,hcopy⟩,hrow⟩ he
    rcases exec_updateStatus he with ⟨old,now,again,hx,-⟩ | ⟨hx,-⟩ | ⟨f,-,rfl,rfl⟩
    · exact absurd (Or.inl hx) hout
    · exact absurd (Or.inl hx) hout
    · refine ⟨_,rfl,fault_ne_conflict _ f,hrow.resolve_right ?_,hcopy.status,rfl⟩
      rintro ⟨row',hrow',ha⟩
      refine hout (Or.inr ?_)
      rw [isStarted, hrow', Option.any_some, decide_eq_false_iff_not]
      intro hst
      rw [hst] at ha
      cases ha
  have hcommit : ∀ {r : Except Exc Unit}, ¬ Outcome.took out = true →
      exec σ (.worker w) o .commit out = some (r,σ') →
      ∃ e, r = .error e ∧ e ≠ .jobStateConflict ∧ σ'.db = σ.db := by
    intro r hout he
    obtain ⟨hx,-⟩ | ⟨-,rfl,e,rfl⟩ := exec_commit he
    · exact absurd hx hout
    · exact ⟨e,rfl,error_ne_conflict he (by simp),rfl⟩
  cases p with
  | requeue j a exc =>
    obtain ⟨rfl,rfl⟩ := Prod.mk.inj (Option.some.inj hc)
    cases hv
    obtain ⟨e,rfl,hne,hcur,hst,hdb⟩ := hrelease hno hh he
    exact ⟨⟨Or.inl rfl,hne⟩,hcur,hst,hdb⟩
  | fail j a exc =>
    obtain ⟨rfl,rfl⟩ := Prod.mk.inj (Option.some.inj hc)
    cases hv
    obtain ⟨e,rfl,hne,hcur,hst,hdb⟩ := hrelease hno hh he
    exact ⟨⟨Or.inr rfl,hne⟩,hcur,hst,hdb⟩
  | commit site =>
    cases site with
    | requeued j a =>
      obtain ⟨rfl,rfl⟩ := Prod.mk.inj (Option.some.inj hc)
      cases hv
      obtain ⟨⟨row,hcopy⟩,hcur⟩ := hh
      obtain ⟨e,rfl,hne,hdb⟩ := hcommit hno he
      exact ⟨⟨Or.inl rfl,hne⟩,hcur,hcopy.status,hdb⟩
    | failed j a =>
      obtain ⟨rfl,rfl⟩ := Prod.mk.inj (Option.some.inj hc)
      cases hv
      obtain ⟨⟨row,hcopy⟩,hcur⟩ := hh
      obtain ⟨e,rfl,hne,hdb⟩ := hcommit hno he
      exact ⟨⟨Or.inr rfl,hne⟩,hcur,hcopy.status,hdb⟩
    | _ => exact absurd trivial hno
  | _ => exact absurd trivial hno

end Own

section Runs
variable {threshold : ℕ} {s s' : State} {l : Label} {w : ℕ} {m : Message} {job : Uuid}
  {started : JobRow}

def Going (w : ℕ) (m : Message) (job : Uuid) (started : JobRow) (s : State) : Prop :=
  ∃ p, s.workers w = .handling m p ∧ Standing s.world.db job started p

structure Stuck (w : ℕ) (m : Message) (job : Uuid) (started : JobRow) (s : State) : Prop where
  current : Current s.world.db job started
  status : started.status = .started
  phase : ∃ p, s.workers w = .handling m p ∧ falling job started p
  alone : ∀ v, v ≠ w → (stanceOf (s.workers v)).claim ≠ some (job,started)

/-- Without a death the worker moves by its own calls only. -/
theorem handling_step (hm : Move threshold s l s') {p : Phase} (hw : s.workers w = .handling m p)
    (hd : l ≠ .die w) (hl : l ≠ .loop w) :
    s'.workers w = .handling m p ∨ ∃ o out, l = .call w o out := by
  by_cases hat : workerAt l = some w
  · cases hm with
    | deliver hv hu hi =>
      obtain rfl := Option.some.inj hat
      rw [hw] at hv
      cases hv
    | begin hv =>
      obtain rfl := Option.some.inj hat
      rw [hw] at hv
      cases hv
    | call hv hview he =>
      obtain rfl := Option.some.inj hat
      exact Or.inr ⟨_,_,rfl⟩
    | loop hv =>
      obtain rfl := Option.some.inj hat
      exact absurd rfl hl
    | stop hv =>
      obtain rfl := Option.some.inj hat
      rcases hv with hv | ⟨x,hv⟩ <;> rw [hw] at hv <;> cases hv
    | die hv =>
      obtain rfl := Option.some.inj hat
      exact absurd rfl hd
    | lose hv hu => exact Or.inl hw
    | _ => cases hat
  · rw [(frame_worker hm hat).1]
    exact Or.inl hw

theorem Standing.step (hs : Sound s) (hm : Move threshold s l s') {p : Phase}
    (h : Standing s.world.db job started p) : Standing s'.world.db job started p := by
  rcases h with ⟨hc,hl⟩ | ⟨hf,hfree⟩
  · exact Or.inl ⟨hc,fun hloose => (hl hloose).step hs hm⟩
  · exact Or.inr ⟨hf,hfree.step hs hm⟩

theorem Going.step (hs : Sound s) (hm : Move threshold s l s') (h : Going w m job started s)
    (hd : l ≠ .die w) (hl : l ≠ .loop w) :
    (Effective w s l ∧ Going w m job started s') ∨
      (¬ Effective w s l ∧ Stuck w m job started s') := by
  obtain ⟨p,hw,hst⟩ := h
  have hh := hs.engaged.holds w
  have hop := hs.opened.workers w
  rw [hw] at hh hop
  by_cases hcall : ∃ o out, l = .call w o out
  · obtain ⟨o,out,rfl⟩ := hcall
    have hm₀ := hm
    cases hm with
    | @call _ m' p' c k _ _ r σ hw' hv he =>
      obtain ⟨rfl,rfl⟩ := Worker.handling.inj (hw.symm.trans hw')
      have hnew : ∀ q, Standing σ.db job started (k r) → q = k r → Going w m job started
          { s.setWorker w (.handling m q) with world := World.record σ (entered q ++
            if Outcome.took out then performed p else []) } := by
        rintro q hq rfl
        exact ⟨k r,by simp [State.setWorker],hq⟩
      have heff : Effective w s (.call w o out) ↔ Releases s.world.db out p := by
        constructor
        · intro h
          exact h m p rfl hw
        · intro h x q _ hx
          obtain ⟨rfl,rfl⟩ := Worker.handling.inj (hw.symm.trans hx)
          exact h
      rcases hst with ⟨hc,hloose⟩ | ⟨hf,hfree⟩
      · by_cases hrel : Releases s.world.db out p
        · exact Or.inl ⟨heff.mpr hrel,
            hnew _ (standing_call hs.guarded.fenced hop hh hc hloose hv he hrel) rfl⟩
        · obtain ⟨hfall,hcur,hstarted,hdb⟩ := falling_of_refused hh hc hv he hrel
          refine Or.inr ⟨fun h => hrel (heff.mp h),?_,hstarted,
            ⟨k r,by simp [State.setWorker],hfall⟩,fun v hvw hcv => ?_⟩
          · change Current σ.db job started
            rw [hdb]
            exact hcur
          · simp only [State.setWorker, Function.update_of_ne hvw] at hcv
            have hclaim : (stanceOf (s.workers w)).claim = some (job,started) := by
              rw [hw]
              cases p with
              | close site e => cases site <;> first | exact hc | cases hc
              | _ => exact hc
            exact hvw (hs.engaged.single v w job started started hcv hclaim rfl)
      · cases p with
        | ackFailure =>
          refine Or.inl ⟨heff.mpr trivial,hnew _ (standing_freed ?_ (hfree.step hs hm₀)) rfl⟩
          cases hv
          cases r <;> exact Or.inr rfl
        | returned => cases hv
        | raised d e => cases hv
        | _ => cases hf
  · refine Or.inl ⟨?_,p,?_,hst.step hs hm⟩
    · cases l with
      | call v o out =>
        rintro x q rfl -
        exact absurd ⟨o,out,rfl⟩ hcall
      | _ => trivial
    · exact (handling_step hm hw hd hl).resolve_right hcall

theorem Stuck.step (hs : Sound s) (hm : Move threshold s l s') (h : Stuck w m job started s)
    (hd : l ≠ .die w) (hl : l ≠ .loop w) : Stuck w m job started s' := by
  obtain ⟨p,hw,hfall⟩ := h.phase
  refine ⟨?_,h.status,?_,fun v hvw hcv => ?_⟩
  · rcases row_step hs hm h.current with hrow | ⟨v,x,site,hv,-,⟨hq,-⟩ | hrun⟩
    · exact hrow
    · rw [h.status] at hq
      cases hq
    · by_cases hvw : v = w
      · subst hvw
        obtain ⟨rfl,rfl⟩ := Worker.handling.inj (hv.symm.trans hw)
        cases hfall
      · exact absurd (by rw [hv]; exact congrArg Stance.claim hrun) (h.alone v hvw)
  · rcases handling_step hm hw hd hl with hw' | ⟨o,out,rfl⟩
    · exact ⟨p,hw',hfall⟩
    · cases hm with
      | @call _ m' p' c k _ _ r σ hw' hv he =>
        obtain ⟨rfl,rfl⟩ := Worker.handling.inj (hw.symm.trans hw')
        exact ⟨k r,by simp [State.setWorker],(falling_call hfall hv he).2⟩
  · rcases claim_step hm hcv with hcv | hnew
    · exact h.alone v hvw hcv
    · obtain ⟨old,hold,hq⟩ := Claiming.queued hs hnew
      obtain rfl := Option.some.inj (hold.symm.trans h.current)
      rw [h.status] at hq
      cases hq

/-- Along the rest of a run the worker goes on as long as its releases take
effect, and is stuck from the first one that does not. -/
theorem going_or_stuck (hr : Reachable (step threshold) init s)
    (h₀ : Going w m job started s) {t : List (State × Label)} (ht : Trail (step threshold) s t s')
    (hlive : ∀ x ∈ t, x.2 ≠ .die w ∧ x.2 ≠ .loop w) :
    (Allowed (Effective w) t ∧ Going w m job started s') ∨
      (¬ Allowed (Effective w) t ∧ Stuck w m job started s') := by
  induction ht with
  | start => exact Or.inl ⟨by simp [Allowed],h₀⟩
  | @next t a b l ht hstep ih =>
    obtain ⟨t₀,ht₀⟩ := hr
    have hs := sound_of_reachable ⟨_,ht₀.trans ht⟩
    have hm := step_move hstep
    obtain ⟨hd,hl⟩ := hlive _ List.mem_cons_self
    have hcons : Allowed (Effective w) ((a,l)::t) ↔ Effective w a l ∧ Allowed (Effective w) t := by
      simp [Allowed]
    rcases ih (fun x hx => hlive x (List.mem_cons_of_mem _ hx)) with ⟨ha,hg⟩ | ⟨ha,hst⟩
    · rcases Going.step hs hm hg hd hl with ⟨he,hg⟩ | ⟨he,hst⟩
      · exact Or.inl ⟨hcons.mpr ⟨he,ha⟩,hg⟩
      · exact Or.inr ⟨fun h => he (hcons.mp h).1,hst⟩
    · exact Or.inr ⟨fun h => ha (hcons.mp h).2,hst.step hs hm hd hl⟩

/-- A run of the handler that has claimed a job and then ends, by returning
or raising, has let the job go exactly when each of its status updates in
`_handle_failure` on the started row, and each commit of one, took effect.
The row may be started again by then, in a later attempt of another worker. -/
theorem claimed_job_released_iff (hr : Reachable (step threshold) init s)
    (hw : s.workers w = .handling m (.processJob job started)) {t : List (State × Label)}
    (ht : Trail (step threshold) s t s') (hlive : ∀ x ∈ t, x.2 ≠ .die w ∧ x.2 ≠ .loop w)
    (hend : ended (s'.workers w) = true) :
    (∃ row, s'.world.db.jobs.get job = some row ∧
      (row.status ≠ .started ∨ started.attempts < row.attempts)) ↔ Allowed (Effective w) t := by
  have h₀ : Going w m job started s := ⟨_,hw,standing_running rfl rfl⟩
  rcases going_or_stuck hr h₀ ht hlive with ⟨ha,p,hp,hst⟩ | ⟨ha,hst⟩
  · refine ⟨fun _ => ha,fun _ => ?_⟩
    have hfree : Freed s'.world.db job started := by
      rcases hst with ⟨hc,-⟩ | ⟨-,hf⟩
      · rw [hp] at hend
        cases p with
        | returned => cases hc
        | raised d e => cases hc
        | _ => cases hend
      · exact hf
    obtain ⟨row,hrow,⟨-,hne⟩ | hlt⟩ := hfree
    · exact ⟨row,hrow,Or.inl hne⟩
    · exact ⟨row,hrow,Or.inr hlt⟩
  · refine ⟨?_,fun h => absurd h ha⟩
    rintro ⟨row,hrow,hx⟩
    obtain rfl := Option.some.inj (hst.current.symm.trans hrow)
    rcases hx with hne | hlt
    · exact absurd hst.status hne
    · omega

end Runs

structure Episode (ls ls' : List Label) : Prop where
  reachable : Reachable (step 100) init (after ls)
  claimed : ∃ m started, (after ls).workers 0 = .handling m (.processJob 2 started)
  trail : ∃ t, Trail (step 100) (after ls) t (after (ls++ls')) ∧
    ∀ x ∈ t, x.2 ≠ .die 0 ∧ x.2 ≠ .loop 0
  ended : ended ((after (ls++ls')).workers 0) = true

theorem episode_of_run {ls ls' : List Label} (hsome : (run (step 100) init (ls++ls')).isSome = true)
    (hclaim : ((after ls).workers 0 matches .handling _ (.processJob 2 _)) = true)
    (hcalls : ls'.all (fun l => l matches .call _ _ _) = true)
    (hend : Failure.ended ((after (ls++ls')).workers 0) = true) : Episode ls ls' := by
  obtain ⟨hr,ht⟩ := trail_path_append hsome
  refine ⟨hr,?_,⟨_,ht,fun x hx => ?_⟩,hend⟩
  · cases hx : (after ls).workers 0 with
    | handling m p =>
      rw [hx] at hclaim
      split at hclaim
      · rename_i x y z heq
        exact ⟨y,z,heq⟩
      · cases hclaim
    | _ =>
      rw [hx] at hclaim
      cases hclaim
  · have := List.all_eq_true.mp hcalls _ (mem_path hx)
    refine ⟨fun he => ?_,fun he => ?_⟩ <;> rw [he] at this <;> cases this

def strandCalls : List Label :=
  [.call 0 {} (.raises .mapped),.call 0 {} .ok,.call 0 {} .ok,.call 0 {} (.raises .mapped),
    .call 0 {} .ok,.call 0 {} .ok]

theorem failure_handler_strands_job :
    Episode claimRun strandCalls ∧
      ((after (claimRun++strandCalls)).world.db.jobs.get 2).map JobRow.status = some .started := by
  refine ⟨episode_of_run ?_ ?_ ?_ ?_,?_⟩ <;> decide +kernel

def requeueCalls : List Label :=
  .call 0 {} (.raises .mapped)::List.replicate 7 (.call 0 {} .ok)

theorem claimed_job_released_iff_sample :
    ∃ t, Trail (step 100) (after claimRun) t (after (claimRun++requeueCalls)) ∧
      Allowed (Effective 0) t := by
  have he : Episode claimRun requeueCalls := by
    refine episode_of_run ?_ ?_ ?_ ?_ <;> decide +kernel
  have hany : ((after (claimRun++requeueCalls)).world.db.jobs.get 2).any
      (fun row => row.status ≠ .started) = true := by decide +kernel
  obtain ⟨row,hrow,hst⟩ := (Option.any_eq_true _ _).mp hany
  simp only [ne_eq, decide_not, Bool.not_eq_true', decide_eq_false_iff_not] at hst
  obtain ⟨m,started,hw⟩ := he.claimed
  obtain ⟨t,ht,hlive⟩ := he.trail
  exact ⟨t,ht,(claimed_job_released_iff he.reachable hw ht hlive he.ended).mp
    ⟨row,hrow,Or.inl hst⟩⟩

end DocPipeline.Failure
