import DocPipeline.Exclusion

/-!
# Messages and the rows they name

A producer commits the row of a job before it publishes a message for it, and
committed rows stay. So a message published by the system names a committed
job wherever it is, that job's document belongs to the same account, and the
upload of that document is stored.
-/

set_option autoImplicit false

namespace DocPipeline.Publication
open DocPipeline.Identifiers DocPipeline.Records DocPipeline.Database DocPipeline.Calls
open DocPipeline.Consumer DocPipeline.Routes DocPipeline.System DocPipeline.Moves
open DocPipeline.Effects DocPipeline.Answers DocPipeline.Transactions DocPipeline.Pending
open DocPipeline.Reservations DocPipeline.Stances DocPipeline.Engagement DocPipeline.Knowledge
open DocPipeline.Ledger DocPipeline.Bookkeeping DocPipeline.Exclusion
open KeyedTable LabelledRuns EffectProgram

def siteJob : Site → Option Uuid
  | .looked job => some job
  | .claimed job _ => some job
  | .processed job _ => some job
  | .requeued job _ => some job
  | .failed job _ => some job
  | _ => none

def phaseJob : Phase → Option Uuid
  | .lookup job => some job
  | .claim job => some job
  | .processJob job _ => some job
  | .processDocument job _ _ => some job
  | .processFetch job _ _ _ => some job
  | .processParse job _ _ _ _ => some job
  | .processPut job _ _ _ _ => some job
  | .processArtifact job _ _ _ _ => some job
  | .processComplete job _ _ _ _ => some job
  | .ackSuccess job _ => some job
  | .requeue job _ _ => some job
  | .fail job _ _ => some job
  | .enqueue job _ => some job
  | .commit site => siteJob site
  | .rollback site _ => siteJob site
  | .close site _ => siteJob site
  | _ => none

theorem phaseJob_onFailure (job : Uuid) (started : JobRow) (e : Exc) :
    phaseJob (onFailure job started e) = some job := by
  unfold onFailure
  split <;> rfl

theorem phaseJob_leave {site : Site} {e : Option Exc} {j : Uuid}
    (h : phaseJob (leave site e) = some j) : siteJob site = some j := by
  cases site with
  | processed job started =>
    cases e with
    | none => exact h
    | some e => exact (phaseJob_onFailure job started e).symm.trans h
  | requeued job started =>
    rcases e with _ | e
    · exact h
    · cases e <;> cases h
  | failed job started =>
    rcases e with _ | e
    · cases h
    · cases e <;> cases h
  | looked job => cases e <;> first | exact h | cases h
  | claimed job started => cases e <;> first | exact h | cases h
  | _ => cases e <;> cases h

/-- The handler stays with the job it started on. -/
theorem phaseJob_call {p : Phase} {c : Call} {k : Except Exc c.Resp → Phase} {j : Uuid}
    (hv : view p = .calls c k) (r : Except Exc c.Resp) (h : phaseJob (k r) = some j) :
    phaseJob p = some j := by
  cases p with
  | returned => cases hv
  | raised d e => cases hv
  | commit site => cases hv; cases r <;> exact h
  | rollback site e => cases hv; cases r <;> exact h
  | close site e => cases hv; cases r <;> exact phaseJob_leave h
  | lookup job =>
    cases hv
    rcases r with e | _ | row
    · exact h
    · cases h
    · dsimp only at h
      split at h
      · exact h
      · cases h
  | claim job =>
    cases hv
    rcases r with e | started
    · cases e <;> cases h
    · exact h
  | ackSuccess job started =>
    cases hv
    rcases r with e | _
    · exact (phaseJob_onFailure job started e).symm.trans h
    · cases h
  | enqueue job started =>
    cases hv
    rcases r with e | _
    · cases e <;> cases h
    · cases h
  | processJob job started => cases hv; rcases r with e | _ | row <;> exact h
  | processDocument job started row => cases hv; rcases r with e | _ | row <;> exact h
  | ackPoison => cases hv; cases r <;> cases h
  | ackDrop => cases hv; cases r <;> cases h
  | nack => cases hv; cases r <;> cases h
  | ackFailure => cases hv; cases r <;> cases h
  | _ => cases hv; cases r <;> exact h

theorem phaseJob_start {m : Message} {j : Uuid} (h : phaseJob (start m.body) = some j) :
    m.jobId = some j := by
  unfold start at h
  unfold Message.jobId
  split at h
  · cases h
  · cases h
  · rename_i job hd
    rw [hd]
    exact h

def messageOf : Worker → Option Message
  | .received m => some m
  | .handling m _ => some m
  | _ => none

def workerJob : Worker → Option Uuid
  | .handling _ p => phaseJob p
  | _ => none

def Committed (db : Tables) (job : Uuid) : Prop := ∃ row, db.jobs.get job = some row

def Named (db : Tables) (m : Message) : Prop :=
  m.producer ≠ .outside → ∃ job, m.jobId = some job ∧ Committed db job

def announces : Option Request → Option JobRow
  | some ⟨_,.enqueueJob job⟩ => some job
  | _ => none

structure Addressed (s : State) : Prop where
  ready : ∀ m ∈ s.world.ready, Named s.world.db m
  unsettled : ∀ w m, s.world.unsettled w = some m → Named s.world.db m
  workers : ∀ w m, messageOf (s.workers w) = some m → Named s.world.db m
  jobs : ∀ w m job, messageOf (s.workers w) = some m → workerJob (s.workers w) = some job →
    m.jobId = some job
  requests : ∀ r job, announces (s.requests r) = some job → Committed s.world.db job.id
  sources : ∀ job row, s.world.db.jobs.get job = some row → Sourced s.world row

section Worlds
variable {σ σ' : World} {p : Proc} {c : Call}

theorem requeue_ready {w : ℕ} {m : Message} (h : m ∈ (σ.requeue (.worker w)).ready) :
    m ∈ σ.ready ∨ σ.unsettled w = some m := by
  unfold World.requeue at h
  dsimp only at h
  split at h
  · rename_i x hx
    rcases List.mem_cons.mp h with rfl | h
    · exact Or.inr hx
    · exact Or.inl h
  · exact Or.inl h

theorem requeue_unsettled {w v : ℕ} {m : Message}
    (h : (σ.requeue (.worker w)).unsettled v = some m) : σ.unsettled v = some m := by
  unfold World.requeue at h
  dsimp only at h
  split at h
  · by_cases hv : v = w
    · subst hv
      simp at h
    · simpa [Function.update_of_ne hv] using h
  · exact h

/-- The messages that are ready after a call. -/
theorem effect_ready (he : Effect σ p c σ') {m : Message} (hm : m ∈ σ'.ready) :
    m ∈ σ.ready ∨ (∃ w, p = .worker w ∧ σ.unsettled w = some m) ∨
      ∃ payload, c = .enqueue payload ∧ m.body = .json payload := by
  cases he with
  | enqueue payload =>
    rcases List.mem_append.mp hm with hm | hm
    · exact Or.inl hm
    · obtain rfl := List.mem_singleton.mp hm
      exact Or.inr (Or.inr ⟨payload,rfl,rfl⟩)
  | ack => exact Or.inl (by simpa using hm)
  | nack =>
    cases p with
    | request r => exact Or.inl hm
    | worker w =>
      rcases requeue_ready hm with hm | hm
      · exact Or.inl hm
      · exact Or.inr (Or.inl ⟨w,rfl,hm⟩)
  | respond x => exact Or.inl (by simpa using hm)
  | _ => exact Or.inl hm

theorem effect_unsettled (he : Effect σ p c σ') {w : ℕ} {m : Message}
    (hm : σ'.unsettled w = some m) : σ.unsettled w = some m := by
  cases he with
  | ack =>
    cases p with
    | request r => exact hm
    | worker v =>
      by_cases hv : w = v
      · subst hv
        simp [World.settle] at hm
      · simpa [World.settle, Function.update_of_ne hv] using hm
  | nack =>
    cases p with
    | request r => exact hm
    | worker v => exact requeue_unsettled hm
  | respond x => simpa using hm
  | _ => exact hm

end Worlds

section Steps
variable {threshold : ℕ} {s s' : State} {l : Label}

theorem step_evolve (hs : Sound s) (hm : Move threshold s l s') {j : Uuid} {row : JobRow}
    (hrow : s.world.db.jobs.get j = some row) :
    ∃ row', s'.world.db.jobs.get j = some row' ∧ (row' = row ∨ Replaces row row') := by
  rcases step_ledger hs hm with ⟨hdb,-⟩ | ⟨es,hp,-⟩
  · exact ⟨row,by rw [hdb]; exact hrow,Or.inl rfl⟩
  · exact posting_evolve hp hrow

theorem Committed.step (hs : Sound s) (hm : Move threshold s l s') {j : Uuid}
    (h : Committed s.world.db j) : Committed s'.world.db j := by
  obtain ⟨row,hrow⟩ := h
  obtain ⟨row',hrow',-⟩ := step_evolve hs hm hrow
  exact ⟨row',hrow'⟩

theorem Named.step (hs : Sound s) (hm : Move threshold s l s') {m : Message}
    (h : Named s.world.db m) : Named s'.world.db m := by
  intro hp
  obtain ⟨job,hj,hc⟩ := h hp
  exact ⟨job,hj,hc.step hs hm⟩

theorem named_newJob {db : Tables} {job : JobRow} {m : Message}
    (hb : m.body = .json (newJobPayload job)) (hc : Committed db job.id) : Named db m := by
  intro _
  refine ⟨job.id,?_,hc⟩
  rw [Message.jobId, hb, decode_newJobPayload]

theorem named_retry {db : Tables} {job : Uuid} {m : Message}
    (hb : m.body = .json (retryPayload job)) (hc : Committed db job) : Named db m := by
  intro _
  refine ⟨job,?_,hc⟩
  rw [Message.jobId, hb, decode_retryPayload]

/-- The two places of the code that publish. -/
theorem view_enqueue {p : Phase} {k : Except Exc Unit → Phase} {payload : Json}
    (hv : view p = .calls (.enqueue payload) k) :
    ∃ job started, p = .enqueue job started ∧ payload = retryPayload job := by
  cases p <;> cases hv
  exact ⟨_,_,rfl,rfl⟩

theorem viewStage_enqueue {x : Stage} {k : Except Exc Unit → Stage} {payload : Json}
    (hv : viewStage threshold x = .calls (.enqueue payload) k) :
    ∃ job, x = .enqueueJob job ∧ payload = newJobPayload job := by
  cases x <;> cases hv
  exact ⟨_,rfl,rfl⟩

inductive Origin (s : State) (l : Label) (m : Message) : Prop
  | ready (h : m ∈ s.world.ready)
  | unsettled {w : ℕ} (h : s.world.unsettled w = some m)
  | retry {w : ℕ} {x : Message} {job : Uuid} {started : JobRow}
      (h : s.workers w = .handling x (.enqueue job started))
      (hb : m.body = .json (retryPayload job))
  | newJob {r : ℕ} {account : AccountId} {job : JobRow}
      (h : s.requests r = some ⟨account,.enqueueJob job⟩)
      (hb : m.body = .json (newJobPayload job))
  | injected {body : Body} (h : l = .inject body) (hb : m = ⟨body,.outside⟩)

theorem origin_requeue {σ : World} {w : ℕ} {m : Message} (hready : σ.ready = s.world.ready)
    (hun : σ.unsettled = s.world.unsettled) (hr : m ∈ (σ.requeue (.worker w)).ready) :
    Origin s l m := by
  rcases requeue_ready hr with hr | hu
  · exact .ready (hready ▸ hr)
  · exact .unsettled (hun ▸ hu)

theorem ready_origin (hm : Move threshold s l s') {m : Message} (hr : m ∈ s'.world.ready) :
    Origin s l m := by
  cases hm with
  | deliver hw hu hi => exact .ready (List.mem_of_mem_eraseIdx hr)
  | call hw hv he =>
    rcases effect_ready (exec_effect he) hr with hr | ⟨v,-,hu⟩ | ⟨payload,rfl,hb⟩
    · exact .ready hr
    · exact .unsettled hu
    · obtain ⟨job,started,rfl,rfl⟩ := view_enqueue hv
      exact .retry hw hb
  | @serve q x c k o out r σ hq hv he =>
    rcases effect_ready (exec_effect he) hr with hr | ⟨v,-,hu⟩ | ⟨payload,rfl,hb⟩
    · exact .ready hr
    · exact .unsettled hu
    · obtain ⟨job,hx,rfl⟩ := viewStage_enqueue hv
      obtain ⟨account,stage⟩ := x
      obtain rfl : stage = .enqueueJob job := hx
      exact .newJob hq hb
  | stop hw => exact origin_requeue (σ := s.world.discard _) rfl rfl hr
  | die hw => exact origin_requeue (σ := s.world.discard _) rfl rfl hr
  | lose hw hu => exact origin_requeue rfl rfl hr
  | duplicate hi =>
    rcases List.mem_cons.mp hr with rfl | hr
    · exact .ready (List.mem_of_getElem? hi)
    · exact .ready hr
  | inject body =>
    rcases List.mem_cons.mp hr with rfl | hr
    · exact .injected rfl rfl
    · exact .ready hr
  | _ => exact .ready hr

/-- A delivery that is unsettled after a step was so before it, or was ready. -/
theorem unsettled_origin (hm : Move threshold s l s') {w : ℕ} {m : Message}
    (hu : s'.world.unsettled w = some m) : s.world.unsettled w = some m ∨ m ∈ s.world.ready := by
  cases hm with
  | @deliver v i x hw hx hi =>
    by_cases hv : w = v
    · subst hv
      obtain rfl : x = m := by simpa using hu
      exact Or.inr (List.mem_of_getElem? hi)
    · exact Or.inl (by simpa [Function.update_of_ne hv] using hu)
  | call hw hv he => exact Or.inl (effect_unsettled (exec_effect he) hu)
  | serve hq hv he => exact Or.inl (effect_unsettled (exec_effect he) hu)
  | stop hw => exact Or.inl (requeue_unsettled (σ := s.world.discard _) hu)
  | die hw => exact Or.inl (requeue_unsettled (σ := s.world.discard _) hu)
  | lose hw hx => exact Or.inl (requeue_unsettled hu)
  | _ => exact Or.inl hu

theorem ready_step (h : Addressed s) (hs : Sound s) (hm : Move threshold s l s') :
    ∀ m ∈ s'.world.ready, Named s.world.db m := by
  intro m hr
  cases ready_origin hm hr with
  | ready hr => exact h.ready m hr
  | unsettled hu => exact h.unsettled _ m hu
  | @retry w x job started hw hb =>
    have hh := hs.engaged.holds w
    rw [hw] at hh
    obtain ⟨row,hcopy⟩ := hh
    exact named_retry hb ⟨row,hcopy.stored⟩
  | @newJob r account job hq hb => exact named_newJob hb (h.requests r job (by rw [hq]; rfl))
  | injected _ hb =>
    subst hb
    exact fun hp => absurd rfl hp

theorem unsettled_step (h : Addressed s) (hm : Move threshold s l s') {w : ℕ} {m : Message}
    (hu : s'.world.unsettled w = some m) : Named s.world.db m := by
  rcases unsettled_origin hm hu with hu | hr
  · exact h.unsettled w m hu
  · exact h.ready m hr

/-- The message of a worker is the one it had, or was ready before. -/
theorem message_step (hm : Move threshold s l s') {w : ℕ} {m : Message}
    (hw : messageOf (s'.workers w) = some m) :
    messageOf (s.workers w) = some m ∨ m ∈ s.world.ready := by
  have hset : ∀ {v : ℕ} {x : Worker}, (messageOf x = some m → v = w →
      messageOf (s.workers w) = some m ∨ m ∈ s.world.ready) →
      messageOf ((s.setWorker v x).workers w) = some m →
      messageOf (s.workers w) = some m ∨ m ∈ s.world.ready := by
    intro v x hx h
    by_cases hv : w = v
    · subst hv
      simp only [State.setWorker, Function.update_self] at h
      exact hx h rfl
    · simp only [State.setWorker, Function.update_of_ne hv] at h
      exact Or.inl h
  cases hm with
  | deliver hv hu hi =>
    refine hset (fun hx _ => ?_) hw
    obtain rfl := Option.some.inj hx
    exact Or.inr (List.mem_of_getElem? hi)
  | begin hv =>
    refine hset (fun hx hvw => ?_) hw
    subst hvw
    rw [hv]
    exact Or.inl hx
  | call hv hview he =>
    refine hset (fun hx hvw => ?_) hw
    subst hvw
    rw [hv]
    exact Or.inl hx
  | loop hv => exact hset (fun hx _ => by cases hx) hw
  | stop hv => exact hset (fun hx _ => by cases hx) hw
  | die hv => exact hset (fun hx _ => by cases hx) hw
  | _ => exact Or.inl hw

theorem jobs_step (h : Addressed s) (hm : Move threshold s l s') {w : ℕ} {m : Message}
    {job : Uuid} (hw : messageOf (s'.workers w) = some m)
    (hj : workerJob (s'.workers w) = some job) : m.jobId = some job := by
  have hidle : Idle s s' → m.jobId = some job := by
    intro hi
    rcases hi.workers w with he | hf
    · rw [he] at hw hj
      exact h.jobs w m job hw hj
    · cases hx : s'.workers w with
      | handling x p =>
        rw [hx] at hw hj hf
        obtain rfl : x = m := by simpa [messageOf] using hw
        obtain rfl : p = start x.body := hf
        exact phaseJob_start hj
      | _ =>
        rw [hx] at hj
        cases hj
  cases l with
  | call v o out =>
    cases hm with
    | @call _ x p c k _ _ r σ hv hview he =>
      by_cases hvw : w = v
      · subst hvw
        simp only [State.setWorker, Function.update_self] at hw hj
        exact h.jobs w m job (by rw [hv]; exact hw)
          (by rw [hv]; exact phaseJob_call hview r hj)
      · simp only [State.setWorker, Function.update_of_ne hvw] at hw hj
        exact h.jobs w m job hw hj
  | serve q o out =>
    cases hm with
    | serve hq hv he => exact h.jobs w m job hw hj
  | _ => exact hidle (move_idle hm (by simp) (by simp))

theorem announces_fresh {q : Request} (h : freshRequest q) : announces (some q) = none := by
  obtain ⟨account,stage⟩ := q
  rcases h with h | ⟨route,h⟩
  · simp only at h
    subst h
    rfl
  · simp only at h
    subst h
    cases route <;> rfl

/-- A request comes to publish its job only through a commit that succeeded. -/
theorem announces_serve {x : Stage} {account : AccountId} {c : Call} {k : Except Exc c.Resp → Stage}
    {r : Except Exc c.Resp} {job : JobRow} (hv : viewStage threshold x = .calls c k)
    (h : announces (some ⟨account,k r⟩) = some job) : x = .commitJob job ∧ k r = .enqueueJob job := by
  have hsource := stage_source hv r
  cases hk : k r with
  | enqueueJob job' =>
    rw [hk] at h hsource
    obtain rfl : job' = job := Option.some.inj h
    exact ⟨hsource,rfl⟩
  | _ =>
    rw [hk] at h
    cases h

theorem requests_step (h : Addressed s) (hs : Sound s) (hm : Move threshold s l s') {q : ℕ}
    {job : JobRow} (hq : announces (s'.requests q) = some job) :
    Committed s'.world.db job.id := by
  have hold : announces (s.requests q) = some job → Committed s'.world.db job.id :=
    fun hx => (h.requests q job hx).step hs hm
  cases l with
  | call v o out =>
    cases hm with
    | call hw hv he => exact hold hq
  | serve r o out =>
    cases hm with
    | @serve _ x c k _ _ y σ hx hv he =>
      by_cases hqr : q = r
      · subst hqr
        simp only [State.setStage, Function.update_self] at hq
        obtain ⟨hstage,hk⟩ := announces_serve hv hq
        obtain ⟨account,stage⟩ := x
        obtain rfl : stage = .commitJob job := hstage
        cases hv
        obtain ⟨-,rfl⟩ | ⟨-,-,e,rfl⟩ := exec_commit he
        · have hop := hs.opened.requests q
          rw [hx] at hop
          have hiso := hs.guarded.fenced.isolated
          exact ⟨job,jobs_inserted (hiso.own (.request q)) (hiso.ready (.request q))
            (by rw [hop.1]; exact List.mem_singleton_self _)⟩
        · cases hk
      · simp only [State.setStage, Function.update_of_ne hqr] at hq
        exact hold hq
  | _ =>
    have hi := move_idle hm (by simp) (by simp)
    rcases hi.requests q with he | ⟨x,he,hf⟩
    · rw [he] at hq
      exact hold hq
    · rw [he, announces_fresh hf] at hq
      cases hq

theorem sourced_congr {σ : World} {a b : JobRow} (h : Sourced σ a)
    (hacc : b.accountId = a.accountId) (hdoc : b.documentId = a.documentId) : Sourced σ b := by
  obtain ⟨d,hd,ho⟩ := h
  exact ⟨d,by rw [hacc, hdoc]; exact hd,ho⟩

theorem worker_inserts_nothing {site : Site} {ws : List Write} {row : JobRow}
    (ho : opened (.commit site) ws) : .insertJob row ∉ ws := by
  intro hi
  cases site with
  | claimed job started =>
    obtain ⟨x,rfl,-⟩ := ho
    simp at hi
  | processed job started =>
    obtain ⟨a,x,y,rfl,-⟩ := ho
    simp at hi
  | requeued job started =>
    obtain ⟨x,y,rfl,-⟩ := ho
    simp at hi
  | failed job started =>
    obtain ⟨x,y,rfl,-⟩ := ho
    simp at hi
  | _ =>
    obtain rfl : ws = [] := ho
    simp at hi

/-- The rows after a commit have the sources of the rows before it, or of the
rows it inserts. -/
theorem sources_commit (h : Addressed s) (hs : Sound s) {q : Proc}
    (hi : ∀ row, .insertJob row ∈ s.world.writesOf q → Sourced s.world row) {job : Uuid}
    {row : JobRow} (hrow : (s.world.commit q).db.jobs.get job = some row) :
    Sourced s.world row := by
  have hiso := hs.guarded.fenced.isolated
  rcases jobs_after (hiso.own q) (hiso.ready q) hrow with ⟨hrow,-⟩ | ⟨old,hu,-⟩ | ⟨hx,-⟩
  · exact h.sources job row hrow
  · obtain ⟨hget,hrep⟩ := hiso.ready q _ hu
    exact sourced_congr (h.sources _ _ hget) hrep.account hrep.document
  · exact hi row hx

theorem sources_step (h : Addressed s) (hs : Sound s) (hm : Move threshold s l s') {job : Uuid}
    {row : JobRow} (hrow : s'.world.db.jobs.get job = some row) : Sourced s'.world row := by
  refine Sourced.grow ?_ (move_grows hm)
  cases l with
  | call w o out =>
    cases hm with
    | @call _ m p c k _ _ r σ hw hv he =>
      have hrow : σ.db.jobs.get job = some row := hrow
      by_cases hc : c = .commit
      · subst hc
        obtain ⟨site,rfl⟩ := phase_at_commit hv
        have hop := hs.opened.workers w
        rw [hw] at hop
        obtain ⟨-,rfl⟩ | ⟨-,rfl,-⟩ := exec_commit he
        · exact sources_commit h hs (fun x hx => absurd hx (worker_inserts_nothing hop)) hrow
        · exact h.sources job row hrow
      · rw [(exec_effect he).db hc] at hrow
        exact h.sources job row hrow
  | serve q o out =>
    cases hm with
    | @serve _ x c k _ _ r σ hq hv he =>
      have hrow : σ.db.jobs.get job = some row := hrow
      by_cases hc : c = .commit
      · subst hc
        have hop := hs.opened.requests q
        have hk := hs.informed.requests q
        rw [hq] at hop hk
        obtain ⟨-,rfl⟩ | ⟨-,rfl,-⟩ := exec_commit he
        · refine sources_commit h hs (fun y hy => ?_) hrow
          rcases stage_at_commit hv hop with hws | ⟨z,hz,hws⟩ | ⟨_,_,_,-,hws,-⟩
          · simp [hws, -mem_writesOf] at hy
          · obtain rfl : y = z := by simpa [hws, -mem_writesOf] using hy
            simpa only [KnowsRequest, hz, KnowsStage] using hk
          · simp [hws, -mem_writesOf] at hy
        · exact h.sources job row hrow
      · rw [(exec_effect he).db hc] at hrow
        exact h.sources job row hrow
  | _ =>
    have hi := move_idle hm (by simp) (by simp)
    rw [hi.db] at hrow
    exact h.sources job row hrow

theorem Addressed.step (h : Addressed s) (hs : Sound s) (hm : Move threshold s l s') :
    Addressed s' where
  ready m hr := (ready_step h hs hm m hr).step hs hm
  unsettled w m hu := (unsettled_step h hm hu).step hs hm
  workers w m hw := by
    rcases message_step hm hw with hx | hx
    · exact (h.workers w m hx).step hs hm
    · exact (h.ready m hx).step hs hm
  jobs w m job hw hj := jobs_step h hm hw hj
  requests q job hq := requests_step h hs hm hq
  sources job row hrow := sources_step h hs hm hrow

theorem addressed_of_reachable (h : Reachable (step threshold) init s) : Addressed s := by
  have h₀ : Addressed init := by
    constructor <;> simp [System.init, messageOf, announces, Tables.empty, Table.get_empty]
  exact h.invariant h₀ (fun s l s' hr hs hstep => hs.step (sound_of_reachable hr) (step_move hstep))

/-- No dangling reference reaches a worker. The last four parts say that the
branches for a missing job, document or object are never taken. -/
theorem no_dangling_reference (h : Reachable (step threshold) init s) :
    (∀ m, (m ∈ s.world.ready ∨ ∃ w, s.world.unsettled w = some m) → m.producer ≠ .outside →
      ∃ job row, m.jobId = some job ∧ s.world.db.jobs.get job = some row) ∧
    (∀ job row, s.world.db.jobs.get job = some row →
      ∃ d, s.world.db.documents.get row.documentId = some d ∧ d.accountId = row.accountId ∧
        (s.world.objects d.objectKey).isSome) ∧
    (∀ w m job, s.workers w = .handling m (.lookup job) → m.producer ≠ .outside →
      s.world.db.jobs.get job ≠ none) ∧
    (∀ w m job started, s.workers w = .handling m (.processJob job started) →
      s.world.db.jobs.get job ≠ none) ∧
    (∀ w m job started row, s.workers w = .handling m (.processDocument job started row) →
      s.world.db.getDocument row.documentId row.accountId ≠ none) ∧
    (∀ w m job started row document,
      s.workers w = .handling m (.processFetch job started row document) →
      s.world.objects document.objectKey ≠ none) := by
  have hs := sound_of_reachable h
  have ha := addressed_of_reachable h
  have hrunning : ∀ w job started, stanceOf (s.workers w) = .running job started →
      Current s.world.db job started := by
    intro w job started hx
    have hh := hs.engaged.holds w
    rw [hx] at hh
    exact hh.2
  refine ⟨fun m hm hp => ?_,fun job row hrow => ?_,fun w m job hw hp => ?_,
    fun w m job started hw => ?_,fun w m job started row hw => ?_,
    fun w m job started row document hw => ?_⟩
  · obtain ⟨job,hj,row,hrow⟩ : ∃ job, m.jobId = some job ∧ Committed s.world.db job := by
      rcases hm with hm | ⟨w,hm⟩
      · exact ha.ready m hm hp
      · exact ha.unsettled w m hm hp
    exact ⟨job,row,hj,hrow⟩
  · obtain ⟨d,⟨hd,hacc⟩,ho⟩ := ha.sources job row hrow
    exact ⟨d,hd,hacc,ho⟩
  · obtain ⟨j,hj,row,hrow⟩ := ha.workers w m (by rw [hw]; rfl) hp
    have hjob := ha.jobs w m job (by rw [hw]; rfl) (by rw [hw]; rfl)
    rw [hj] at hjob
    obtain rfl := Option.some.inj hjob
    simp [hrow]
  · have hcur : s.world.db.jobs.get job = some started := hrunning w job started (by rw [hw]; rfl)
    simp [hcur]
  · have hk := hs.informed.workers w
    rw [hw] at hk
    obtain rfl : row = started := hk
    obtain ⟨d,hd,-⟩ := ha.sources job row (hrunning w job row (by rw [hw]; rfl))
    simp [getDocument_eq_some.mpr hd]
  · have hk := hs.informed.workers w
    rw [hw] at hk
    obtain ⟨rfl,hf⟩ := hk
    obtain ⟨d,hd,ho⟩ := ha.sources job row (hrunning w job row (by rw [hw]; rfl))
    obtain rfl := Option.some.inj (hf.1.symm.trans hd.1)
    exact Option.isSome_iff_ne_none.mp ho

end Steps

theorem no_dangling_reference_sample :
    ∃ m ∈ (after publishRun).world.ready, m.producer ≠ .outside ∧
      ∃ job row, m.jobId = some job ∧ (after publishRun).world.db.jobs.get job = some row := by
  have hr : Reachable (step 100) init (after publishRun) :=
    reachable_of_run publishRun (by decide +kernel)
  have hlen : 0 < (after publishRun).world.ready.length := by decide +kernel
  have hall : (after publishRun).world.ready.all (fun m => m.producer = .api) = true := by
    decide +kernel
  obtain ⟨m,hm⟩ := List.exists_mem_of_length_pos hlen
  have hp : m.producer ≠ .outside := by
    have := List.all_eq_true.mp hall m hm
    simp only [decide_eq_true_eq] at this
    simp [this]
  exact ⟨m,hm,hp,(no_dangling_reference hr).1 m (Or.inl hm) hp⟩

end DocPipeline.Publication
