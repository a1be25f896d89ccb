import DocPipeline.Budget

/-!
# No queued job is lost

A queued job always has a token that will bring it to a worker: a ready
message, an unsettled one whose worker has not dropped it, a worker about to
publish the retry it has committed, or a request about to publish the job.
Workers may die anywhere; what is excluded is that the broker takes a message
from a worker that is alive, and that a producer stops between its commit and
its publication.
-/

set_option autoImplicit false

namespace DocPipeline.Tokens
open DocPipeline.Identifiers DocPipeline.Records DocPipeline.Database DocPipeline.Calls
open DocPipeline.Consumer DocPipeline.Routes DocPipeline.System DocPipeline.Moves
open DocPipeline.Effects DocPipeline.Answers DocPipeline.Transactions DocPipeline.Pending
open DocPipeline.Reservations DocPipeline.Stances DocPipeline.Engagement DocPipeline.Knowledge
open DocPipeline.Ledger DocPipeline.Bookkeeping DocPipeline.Exclusion DocPipeline.Publication
open DocPipeline.Budget LabelledRuns EffectProgram

def dropping : Phase → Bool
  | .ackPoison | .ackDrop | .ackFailure | .returned => true
  | .ackSuccess _ _ => true
  | .commit .dropping | .rollback .dropping _ | .close .dropping _ => true
  | .raised dropped _ => dropped
  | _ => false

def retrying : Phase → Option Uuid
  | .close (.requeued job _) none => some job
  | .enqueue job _ => some job
  | _ => none

def undecided : Worker → Bool
  | .received _ => true
  | .handling _ p => !dropping p && (retrying p).isNone
  | _ => false

inductive Token (s : State) (job : Uuid) : Prop
  | ready {m : Message} (hm : m ∈ s.world.ready) (hj : m.jobId = some job)
  | held {w : ℕ} {m : Message} (hu : s.world.unsettled w = some m) (hj : m.jobId = some job)
      (hw : undecided (s.workers w) = true)
  | retry {w : ℕ} {m : Message} {p : Phase} (hw : s.workers w = .handling m p)
      (hp : retrying p = some job) (hu : s.world.unsettled w = some m)
  | created {r : ℕ} {row : JobRow} (hr : announces (s.requests r) = some row)
      (hj : row.id = job)

def commits : Option Request → Bool
  | some ⟨_,.commitJob _⟩ => true
  | _ => false

def enqueues : Worker → Bool
  | .handling _ (.enqueue _ _) => true
  | _ => false

/-- The steps of a run in which nothing is taken from a live worker and every
producer goes on from its commit to a publication that succeeds. -/
def Steady (s : State) : Label → Prop
  | .lose _ => False
  | .abort r => announces (s.requests r) = none
  | .call w _ out => enqueues (s.workers w) = true → out = .ok
  | .serve r _ out => (announces (s.requests r) ≠ none → out = .ok) ∧
      (commits (s.requests r) = true → ∀ f, out ≠ .raisesAfter f)
  | _ => True

def nacked : Phase → Bool
  | .commit .claiming | .close .claiming none => true
  | _ => false

def anchored (db : Tables) (u : Option Message) : Worker → Prop
  | .received m => u = some m
  | .handling m p => (∀ x, u = some x → x = m) ∧
      (∀ job, phaseJob p = some job → u = some m ∨ Finished db job) ∧
      (nacked p = true → u = none)
  | _ => True

def Anchored (s : State) : Prop :=
  ∀ w, anchored s.world.db (s.world.unsettled w) (s.workers w)

section Anchors
variable {threshold : ℕ} {s s' : State} {l : Label}

theorem finished_step (hs : Sound s) (hm : Move threshold s l s') {job : Uuid}
    (h : Finished s.world.db job) : Finished s'.world.db job := by
  obtain ⟨row,hrow,ha⟩ := h
  obtain ⟨row',hrow',rfl | hr⟩ := step_evolve hs hm hrow
  · exact ⟨row',hrow',ha⟩
  · rw [active_of_edge hr.edge] at ha
    cases ha

theorem anchored_db {db db' : Tables} {u : Option Message} {x : Worker}
    (hf : ∀ job, Finished db job → Finished db' job) (h : anchored db u x) :
    anchored db' u x := by
  cases x with
  | handling m p => exact ⟨h.1,fun job hj => (h.2.1 job hj).imp_right (hf job),h.2.2⟩
  | _ => exact h

theorem anchored_start (db : Tables) (m : Message) :
    anchored db (some m) (.handling m (start m.body)) := by
  refine ⟨fun x hx => (Option.some.inj hx).symm,fun _ _ => Or.inl rfl,fun hn => ?_⟩
  unfold start at hn
  split at hn <;> cases hn

/-- The acknowledgements of the handler. -/
theorem view_ack {p : Phase} {k : Except Exc Unit → Phase} (hv : view p = .calls .ack k) :
    p = .ackPoison ∨ p = .ackDrop ∨ p = .ackFailure ∨ ∃ job started, p = .ackSuccess job started := by
  cases p <;> cases hv <;> simp

theorem view_nack {p : Phase} {k : Except Exc Unit → Phase} (hv : view p = .calls .nack k) :
    p = .nack := by
  cases p <;> cases hv
  rfl

theorem requeue_unsettled_self (σ : World) (w : ℕ) :
    (σ.requeue (.worker w)).unsettled w = none := by
  unfold World.requeue
  dsimp only
  split
  · simp
  · assumption

theorem nacked_onFailure (job : Uuid) (started : JobRow) (e : Exc) :
    nacked (onFailure job started e) = false := by
  unfold onFailure
  split <;> rfl

theorem nacked_leave (site : Site) (e : Option Exc) : nacked (leave site e) = false := by
  cases site with
  | processed job started =>
    cases e with
    | none => rfl
    | some e => exact nacked_onFailure job started e
  | requeued | failed =>
    rcases e with _ | e
    · rfl
    · cases e <;> rfl
  | _ => cases e <;> rfl

/-- A successful nack has returned the message. -/
theorem nacked_call {σ σ' : World} {w : ℕ} {o : Oracle} {out : Outcome} {p : Phase} {c : Call}
    {k : Except Exc c.Resp → Phase} {r : Except Exc c.Resp} (hv : view p = .calls c k)
    (he : exec σ (.worker w) o c out = some (r,σ')) (hp : nacked p = true → σ.unsettled w = none)
    (hn : nacked (k r) = true) : σ'.unsettled w = none := by
  cases p with
  | returned => cases hv
  | raised d e => cases hv
  | nack =>
    cases hv
    cases r with
    | error e => cases hn
    | ok _ =>
      obtain ⟨-,he⟩ := exec_ok he
      cases he
      exact requeue_unsettled_self σ w
  | commit site =>
    cases hv
    cases r with
    | error e => cases hn
    | ok _ =>
      rw [(exec_effect he).unsettled (by simp) (by simp)]
      cases site with
      | claiming => exact hp rfl
      | _ => cases hn
  | close site e =>
    cases hv
    cases r <;> simp only [nacked_leave] at hn <;> cases hn
  | lookup job =>
    cases hv
    rcases r with e | _ | row
    · cases hn
    · cases hn
    · dsimp only at hn
      split at hn <;> cases hn
  | claim job =>
    cases hv
    rcases r with e | started
    · cases e <;> cases hn
    · cases hn
  | ackSuccess job started =>
    cases hv
    rcases r with e | _
    · simp only [nacked_onFailure] at hn
      cases hn
    · cases hn
  | enqueue job started =>
    cases hv
    rcases r with e | _
    · cases e <;> cases hn
    · cases hn
  | processJob job started => cases hv; rcases r with e | _ | row <;> cases hn
  | processDocument job started row => cases hv; rcases r with e | _ | row <;> cases hn
  | rollback site e => cases hv; cases r <;> cases site <;> cases hn
  | _ => cases hv; cases r <;> cases hn

theorem anchored_call (hs : Sound s) {w : ℕ} {m : Message} {p : Phase} {c : Call}
    {k : Except Exc c.Resp → Phase} {o : Oracle} {out : Outcome} {r : Except Exc c.Resp}
    {σ : World} (hf : ∀ job, Finished s.world.db job → Finished σ.db job)
    (hw : s.workers w = .handling m p) (hv : view p = .calls c k)
    (he : exec s.world (.worker w) o c out = some (r,σ))
    (h : anchored s.world.db (s.world.unsettled w) (.handling m p)) :
    anchored σ.db (σ.unsettled w) (.handling m (k r)) := by
  obtain ⟨hsame,hjob,hnack⟩ := h
  have heff := exec_effect he
  refine ⟨fun x hx => hsame x (effect_unsettled heff hx),fun job hj => ?_,nacked_call hv he hnack⟩
  have hj := phaseJob_call hv r hj
  rcases hjob job hj with hu | hfin
  · by_cases hack : c = .ack
    · subst hack
      rcases view_ack hv with rfl | rfl | rfl | ⟨j,started,rfl⟩
      · cases hj
      · cases hj
      · cases hj
      · obtain rfl : j = job := Option.some.inj hj
        have hh := hs.engaged.holds w
        rw [hw] at hh
        exact Or.inr (hf j hh.2)
    · by_cases hnk : c = .nack
      · subst hnk
        obtain rfl := view_nack hv
        cases hj
      · exact Or.inl ((congrFun (heff.unsettled hack hnk) w).trans hu)
  · exact Or.inr (hf job hfin)

theorem Anchored.step (h : Anchored s) (hs : Sound s) (hl : ∀ w, l ≠ .lose w)
    (hm : Move threshold s l s') : Anchored s' := by
  have hf : ∀ job, Finished s.world.db job → Finished s'.world.db job :=
    fun job => finished_step hs hm
  have hkeep : ∀ v, s'.world.unsettled v = s.world.unsettled v → s'.workers v = s.workers v →
      anchored s'.world.db (s'.world.unsettled v) (s'.workers v) := by
    intro v hu hw
    rw [hu, hw]
    exact anchored_db hf (h v)
  intro v
  cases hm with
  | lose hw hu => exact absurd rfl (hl _)
  | @deliver w i m hw hu hi =>
    by_cases hv : v = w
    · subst hv
      simp [State.setWorker, anchored]
    · exact hkeep v (by simp [hv]) (by simp [State.setWorker, hv])
  | @begin w m hw =>
    by_cases hv : v = w
    · subst hv
      have hr := h v
      rw [hw] at hr
      simp only [State.setWorker, Function.update_self]
      rw [show s.world.unsettled v = some m from hr]
      exact anchored_start _ m
    · exact hkeep v rfl (by simp [State.setWorker, hv])
  | @call w m p c k o out r σ hw hv he =>
    by_cases hvw : v = w
    · subst hvw
      have hr := h v
      rw [hw] at hr
      simp only [State.setWorker, Function.update_self]
      change anchored σ.db (σ.unsettled v) _
      exact anchored_call hs hf hw hv he hr
    · exact hkeep v ((exec_effect he).unsettled_other (fun heq => hvw (Proc.worker.inj heq).symm))
        (by simp [State.setWorker, hvw])
  | @loop w m hw =>
    by_cases hv : v = w
    · subst hv
      simp [State.setWorker, anchored]
    · exact hkeep v rfl (by simp [State.setWorker, hv])
  | @stop w hw =>
    by_cases hv : v = w
    · subst hv
      simp [State.endWorker, State.setWorker, anchored]
    · exact hkeep v (requeue_unsettled_other _ hv) (by simp [State.endWorker, State.setWorker, hv])
  | @die w hw =>
    by_cases hv : v = w
    · subst hv
      simp [State.endWorker, State.setWorker, anchored]
    · exact hkeep v (requeue_unsettled_other _ hv) (by simp [State.endWorker, State.setWorker, hv])
  | serve hq hv he => exact hkeep v ((exec_effect he).unsettled_other (by simp)) rfl
  | _ => exact hkeep v rfl rfl

end Anchors

def Queued (db : Tables) (job : Uuid) : Prop :=
  ∃ row, db.jobs.get job = some row ∧ row.status = .queued

theorem finished_not_queued {db : Tables} {job : Uuid} (h : Finished db job) : ¬ Queued db job := by
  rintro ⟨row,hrow,hq⟩
  obtain ⟨row',hrow',ha⟩ := h
  obtain rfl := Option.some.inj (hrow.symm.trans hrow')
  rw [hq] at ha
  cases ha

/-- While a worker runs a job, or has seen it finished, the job is not queued. -/
theorem holds_not_queued {db : Tables} {x : Stance} {job : Uuid} {started : JobRow}
    (h : Holds db x)
    (hx : x = .running job started ∨ x = .unsure job started ∨ x = .done job started) :
    ¬ Queued db job := by
  have hcur : (∃ row, Copy db job started row) → Current db job started → ¬ Queued db job := by
    rintro ⟨row,hcopy⟩ hcur ⟨row',hrow,hq⟩
    obtain rfl := Option.some.inj (hcur.symm.trans hrow)
    rw [hcopy.status] at hq
    cases hq
  rcases hx with rfl | rfl | rfl
  · exact hcur h.1 h.2
  · rcases h.2 with hc | hf
    · exact hcur h.1 hc
    · exact finished_not_queued hf
  · exact finished_not_queued h.2

section Kept
variable {σ σ' : World} {w : ℕ} {o : Oracle} {out : Outcome} {p : Phase} {c : Call}
  {k : Except Exc c.Resp → Phase} {r : Except Exc c.Resp} {job : Uuid}

theorem dropping_onFailure (j : Uuid) (started : JobRow) (e : Exc) :
    dropping (onFailure j started e) = false := by
  unfold onFailure
  split <;> rfl

theorem dropping_released {site : Site} {j : Uuid} {started : JobRow}
    (hs : site = .requeued j started ∨ site = .failed j started) {e : Exc}
    (he : e ≠ .jobStateConflict) : dropping (leave site (some e)) = false := by
  rcases hs with rfl | rfl <;> cases e <;> first | rfl | exact absurd rfl he

/-- Leaving a session, the handler drops the message of a queued job only if
it had decided so inside or has returned it. -/
theorem kept_leave {db : Tables} {site : Site} {e : Option Exc} (h : Holds db (stance (.close site e)))
    (hq : Queued db job) (hj : ∀ j, siteJob site = some j → j = job) (hd : site ≠ .dropping)
    (hn : site = .claiming → e ≠ none) : dropping (leave site e) = false := by
  have hrel : ∀ j started, site = .requeued j started ∨ site = .failed j started →
      ∀ x, e = some x → dropping (leave site e) = false := by
    rintro j started hs x rfl
    by_cases hx : x = .jobStateConflict
    · subst hx
      rcases hs with rfl | rfl <;> obtain rfl := hj j rfl <;>
        exact absurd hq (finished_not_queued h.2)
    · exact dropping_released hs hx
  cases site with
  | dropping => exact absurd rfl hd
  | claiming =>
    cases e with
    | none => exact absurd rfl (hn rfl)
    | some e => rfl
  | looked j => cases e <;> rfl
  | claimed j started => cases e <;> rfl
  | processed j started =>
    obtain rfl := hj j rfl
    cases e with
    | none => exact absurd hq (finished_not_queued h.2)
    | some e => exact dropping_onFailure j started e
  | requeued j started =>
    cases e with
    | none => rfl
    | some e => exact hrel j started (Or.inl rfl) e rfl
  | failed j started =>
    obtain rfl := hj j rfl
    cases e with
    | none => exact absurd hq (finished_not_queued h.2)
    | some e => exact hrel j started (Or.inr rfl) e rfl

theorem kept_leave_error {site : Site} {e : Exc} (he : e ≠ .jobStateConflict)
    (hd : site ≠ .dropping) : dropping (leave site (some e)) = false := by
  cases site with
  | dropping => exact absurd rfl hd
  | processed j started => exact dropping_onFailure j started e
  | requeued j started => exact dropping_released (Or.inl rfl) he
  | failed j started => exact dropping_released (Or.inr rfl) he
  | _ => rfl

/-- A handler does not come to drop the message of a queued job. -/
theorem kept_call (hh : Holds σ.db (stance p)) (hq : Queued σ.db job)
    (hj : ∀ j, phaseJob p = some j → j = job) (hd : dropping p = false)
    (hn : nacked p = false) (hv : view p = .calls c k) (hc : ∀ payload, c ≠ .enqueue payload)
    (he : exec σ (.worker w) o c out = some (r,σ')) : dropping (k r) = false := by
  obtain ⟨row,hrow,hst⟩ := hq
  cases p with
  | returned => cases hv
  | raised d e => cases hv
  | ackPoison => cases hd
  | ackDrop => cases hd
  | ackFailure => cases hd
  | ackSuccess j started => cases hd
  | lookup j =>
    obtain rfl := hj j rfl
    cases hv
    rcases r with e | x
    · rfl
    · obtain ⟨hx,-⟩ := ok_getForProcessing he
      obtain rfl := hx.symm.trans hrow
      simp [hst, dropping]
  | claim j =>
    obtain rfl := hj j rfl
    cases hv
    rcases exec_updateStatus he with ⟨old,now,again,-,rfl,-⟩ | ⟨-,rfl,-,hno⟩ | ⟨f,-,rfl,-⟩
    · rfl
    · exact absurd hst (hno row hrow)
    · cases f <;> rfl
  | commit site => cases hv; cases r <;> cases site <;> first | rfl | cases hd
  | rollback site e => cases hv; cases r <;> cases site <;> first | rfl | cases hd
  | close site e =>
    have hsite : site ≠ .dropping := by
      rintro rfl
      cases hd
    cases hv
    rcases r with e' | _
    · exact kept_leave_error (error_ne_conflict he (by simp)) hsite
    · refine kept_leave hh ⟨row,hrow,hst⟩ hj hsite ?_
      rintro rfl rfl
      cases hn
  | enqueue j started =>
    cases hv
    exact absurd rfl (hc _)
  | processJob j started => cases hv; rcases r with e | _ | x <;> rfl
  | processDocument j started x => cases hv; rcases r with e | _ | x <;> rfl
  | _ => cases hv; cases r <;> rfl

end Kept

section Preservation
variable {threshold : ℕ} {s s' : State} {l : Label} {job : Uuid}

theorem effect_ready_mono {σ σ' : World} {p : Proc} {c : Call} (he : Effect σ p c σ') {m : Message}
    (hm : m ∈ σ.ready) : m ∈ σ'.ready := by
  cases he with
  | enqueue payload => exact List.mem_append_left _ hm
  | ack => simpa using hm
  | nack =>
    cases p with
    | request q => exact hm
    | worker w =>
      unfold World.requeue
      dsimp only
      split
      · exact List.mem_cons_of_mem _ hm
      · exact hm
  | respond x => simpa using hm
  | _ => exact hm

theorem requeue_ready_mono (σ : World) (w : ℕ) {m : Message} (hm : m ∈ σ.ready) :
    m ∈ (σ.requeue (.worker w)).ready :=
  effect_ready_mono (Effect.nack (p := .worker w)) hm

theorem requeue_returns {σ : World} {w : ℕ} {m : Message} (hu : σ.unsettled w = some m) :
    m ∈ (σ.requeue (.worker w)).ready := by
  simp [World.requeue, hu]

/-- A ready message stays ready or is handed to a worker. -/
theorem ready_kept (hm : Move threshold s l s') {m : Message} (h : m ∈ s.world.ready)
    (hj : m.jobId = some job) : Token s' job := by
  cases hm with
  | @deliver w i x hw hu hi =>
    obtain ⟨n,hn⟩ := List.mem_iff_getElem?.mp h
    by_cases hni : n = i
    · subst hni
      obtain rfl := Option.some.inj (hi.symm.trans hn)
      exact .held (w := w) (m := x) (by simp) hj (by simp [State.setWorker, undecided])
    · exact .ready (List.mem_eraseIdx_iff_getElem?.mpr ⟨n,hni,hn⟩) hj
  | call hw hv he => exact .ready (effect_ready_mono (exec_effect he) h) hj
  | serve hq hv he => exact .ready (effect_ready_mono (exec_effect he) h) hj
  | @stop w hw => exact .ready (requeue_ready_mono (s.world.discard (.worker w)) w h) hj
  | @die w hw => exact .ready (requeue_ready_mono (s.world.discard (.worker w)) w h) hj
  | @lose w m' hw hu => exact .ready (requeue_ready_mono s.world w h) hj
  | duplicate hi => exact .ready (List.mem_cons_of_mem _ h) hj
  | inject body => exact .ready (List.mem_cons_of_mem _ h) hj
  | _ => exact .ready h hj

/-- A worker that has not dropped its message keeps the token of its job. -/
theorem token_of_kept (ha : Addressed s) {w : ℕ} {m : Message} {p : Phase}
    (hw : s.workers w = .handling m p) (hu : s.world.unsettled w = some m)
    (hj : m.jobId = some job) (hd : dropping p = false) : Token s job := by
  cases hr : retrying p with
  | none => exact .held hu hj (by rw [hw]; simp [undecided, hd, hr])
  | some j =>
    have hp : phaseJob p = some j := by
      cases p with
      | close site e => cases site <;> cases e <;> first | exact hr | cases hr
      | enqueue j' started => exact hr
      | _ => cases hr
    have := ha.jobs w m j (by rw [hw]; rfl) (by rw [hw]; exact hp)
    obtain rfl := Option.some.inj (this.symm.trans hj)
    exact .retry hw hr hu

theorem jobId_of_retry (j : Uuid) (x : Producer) :
    Message.jobId ⟨.json (retryPayload j),x⟩ = some j := by
  rw [Message.jobId, decode_retryPayload]

theorem jobId_of_newJob (row : JobRow) (x : Producer) :
    Message.jobId ⟨.json (newJobPayload row),x⟩ = some row.id := by
  rw [Message.jobId, decode_newJobPayload]

/-- A call of the worker that carries the token. -/
theorem token_call (hs : Sound s) (ha : Addressed s) (ha' : Addressed s') (hn : Anchored s) {w : ℕ}
    {o : Oracle} {out : Outcome} {m : Message} {p : Phase} (hw : s.workers w = .handling m p)
    (hu : s.world.unsettled w = some m) (hj : m.jobId = some job) (hd : dropping p = false)
    (hok : Steady s (.call w o out)) (hm : Move threshold s (.call w o out) s')
    (hq : Queued s.world.db job) : Token s' job := by
  cases hm with
  | @call _ m' p' c k _ _ r σ hw' hv he =>
    obtain ⟨rfl,rfl⟩ := Worker.handling.inj (hw.symm.trans hw')
    have hphase : ∀ j, phaseJob p = some j → j = job := by
      intro j hp
      have := ha.jobs w m j (by rw [hw]; rfl) (by rw [hw]; exact hp)
      exact Option.some.inj (this.symm.trans hj)
    by_cases hen : ∃ payload, c = .enqueue payload
    · obtain ⟨payload,rfl⟩ := hen
      obtain ⟨j,started,rfl,rfl⟩ := view_enqueue hv
      obtain rfl := hphase j rfl
      obtain rfl : out = .ok := hok (by rw [hw]; rfl)
      cases he
      exact .ready (List.mem_append_right _ (List.mem_singleton_self _)) (jobId_of_retry j _)
    · by_cases hnk : c = .nack
      · subst hnk
        obtain rfl := view_nack hv
        have hcases : σ = s.world ∨ σ = s.world.requeue (.worker w) := by
          cases out <;> cases he
          · exact Or.inr rfl
          · exact Or.inl rfl
          · exact Or.inr rfl
        rcases hcases with rfl | rfl
        · refine token_of_kept ha' (w := w) (m := m) (by simp [State.setWorker]; rfl) hu hj ?_
          cases hv
          cases r <;> rfl
        · exact .ready (requeue_returns hu) hj
      · have hself := hn w
        rw [hw] at hself
        have hh := hs.engaged.holds w
        rw [hw] at hh
        have hnacked : nacked p = false := by
          cases hx : nacked p with
          | false => rfl
          | true =>
            rw [hself.2.2 hx] at hu
            cases hu
        have hkept := kept_call hh hq hphase hd hnacked hv (fun payload hc => hen ⟨payload,hc⟩) he
        refine token_of_kept ha' (w := w) (m := m) (by simp [State.setWorker]) ?_ hj hkept
        by_cases hack : c = .ack
        · subst hack
          rcases view_ack hv with rfl | rfl | rfl | ⟨_,_,rfl⟩ <;> cases hd
        · exact (congrFun ((exec_effect he).unsettled hack hnk) w).trans hu

def Carries (s : State) (w : ℕ) (m : Message) : Prop :=
  s.world.unsettled w = some m ∧
    (s.workers w = .received m ∨ ∃ p, s.workers w = .handling m p ∧ dropping p = false)

theorem Carries.token (ha : Addressed s) {w : ℕ} {m : Message} (h : Carries s w m)
    (hj : m.jobId = some job) : Token s job := by
  obtain ⟨hu,hw | ⟨p,hw,hd⟩⟩ := h
  · exact .held hu hj (by rw [hw]; rfl)
  · exact token_of_kept ha hw hu hj hd

theorem Carries.keep (ha' : Addressed s') {w : ℕ} {m : Message} (h : Carries s w m)
    (hj : m.jobId = some job) (hw : s'.workers w = s.workers w)
    (hu : s'.world.unsettled w = s.world.unsettled w) : Token s' job := by
  have h' : Carries s' w m := by
    unfold Carries
    rw [hw, hu]
    exact h
  exact h'.token ha' hj

theorem Carries.step (hs : Sound s) (ha : Addressed s) (ha' : Addressed s') (hn : Anchored s)
    (hok : Steady s l) (hm : Move threshold s l s') (hq : Queued s.world.db job) {w : ℕ}
    {m : Message} (h : Carries s w m) (hj : m.jobId = some job) : Token s' job := by
  have hkeep := Carries.keep ha' h hj
  obtain ⟨hu,hw⟩ := h
  cases l with
  | call v o out =>
    by_cases hv : w = v
    · subst hv
      rcases hw with hw | ⟨p,hw,hd⟩
      · cases hm with
        | call hw' => rw [hw] at hw'; cases hw'
      · exact token_call hs ha ha' hn hw hu hj hd hok hm hq
    · cases hm with
      | call hw' hview he =>
        exact hkeep (by simp [State.setWorker, hv])
          ((exec_effect he).unsettled_other (fun heq => hv (Proc.worker.inj heq).symm))
  | lose v => exact absurd hok (by simp [Steady])
  | deliver v i =>
    cases hm with
    | deliver hw' hu' hi =>
      have hv : w ≠ v := by
        rintro rfl
        rw [hu] at hu'
        cases hu'
      exact hkeep (by simp [State.setWorker, hv]) (by simp [hv])
  | begin v =>
    cases hm with
    | @begin _ x hx =>
      by_cases hv : w = v
      · subst hv
        have hself := hn w
        rw [hx] at hself
        obtain rfl := Option.some.inj (hu.symm.trans hself)
        refine token_of_kept ha' (w := w) (m := m) (p := start m.body)
          (by simp [State.setWorker]) hu hj ?_
        unfold Message.jobId at hj
        unfold start
        split at hj
        · rename_i hdec
          rw [hdec]
          rfl
        · cases hj
      · exact hkeep (by simp [State.setWorker, hv]) rfl
  | loop v =>
    cases hm with
    | @loop _ x hx =>
      have hv : w ≠ v := by
        rintro rfl
        rcases hw with hw | ⟨p,hw,hd⟩
        · rw [hw] at hx
          cases hx
        · obtain ⟨-,rfl⟩ := Worker.handling.inj (hw.symm.trans hx)
          cases hd
      exact hkeep (by simp [State.setWorker, hv]) rfl
  | stop v =>
    cases hm with
    | stop hw' =>
      by_cases hv : w = v
      · subst hv
        exact .ready (requeue_returns (σ := s.world.discard (.worker w)) hu) hj
      · exact hkeep (by simp [State.endWorker, State.setWorker, hv]) (requeue_unsettled_other _ hv)
  | die v =>
    cases hm with
    | die hw' =>
      by_cases hv : w = v
      · subst hv
        exact .ready (requeue_returns (σ := s.world.discard (.worker w)) hu) hj
      · exact hkeep (by simp [State.endWorker, State.setWorker, hv]) (requeue_unsettled_other _ hv)
  | serve q o out =>
    cases hm with
    | serve hx hv he => exact hkeep rfl ((exec_effect he).unsettled_other (by simp))
  | duplicate i => cases hm; exact hkeep rfl rfl
  | inject body => cases hm; exact hkeep rfl rfl
  | arrive q account route => cases hm; exact hkeep rfl rfl
  | abort q => cases hm; exact hkeep rfl rfl
  | receive q => cases hm; exact hkeep rfl rfl
  | upload account key content => cases hm; exact hkeep rfl rfl

/-- A request between its commit and its publication publishes. -/
theorem created_step (hok : Steady s l) (hm : Move threshold s l s') {q : ℕ} {row : JobRow}
    (hq : announces (s.requests q) = some row) (hj : row.id = job) : Token s' job := by
  have hkeep : s'.requests q = s.requests q → Token s' job :=
    fun he => .created (r := q) (by rw [he]; exact hq) hj
  cases hm with
  | @serve r x c k o out y σ hx hv he =>
    by_cases hqr : q = r
    · subst hqr
      obtain rfl : out = .ok := hok.1 (by simp [hq])
      obtain ⟨account,stage⟩ := x
      cases stage with
      | enqueueJob row' =>
        rw [hx] at hq
        obtain rfl := Option.some.inj hq
        cases hv
        cases he
        subst hj
        exact .ready (List.mem_append_right _ (List.mem_singleton_self _)) (jobId_of_newJob _ _)
      | _ =>
        rw [hx] at hq
        cases hq
    · exact hkeep (by simp [State.setStage, hqr])
  | @arrive r account route hr =>
    have hqr : q ≠ r := by
      rintro rfl
      rw [hr] at hq
      cases hq
    exact hkeep (by simp [State.setStage, hqr])
  | @abort r x hx =>
    have hqr : q ≠ r := by
      rintro rfl
      rw [show announces _ = none from hok] at hq
      cases hq
    exact hkeep (by simp [State.setStage, hqr])
  | _ => exact hkeep rfl

theorem queued_of_commit (hs : Sound s) {q : Proc} (hq : Queued (s.world.commit q).db job) :
    Queued s.world.db job ∨
      (∃ old row, .updateJob old row ∈ s.world.writesOf q ∧ old.id = job ∧ row.status = .queued) ∨
      ∃ row, .insertJob row ∈ s.world.writesOf q ∧ row.id = job := by
  obtain ⟨row,hrow,hst⟩ := hq
  have hiso := hs.guarded.fenced.isolated
  rcases jobs_after (hiso.own q) (hiso.ready q) hrow with ⟨hrow,-⟩ | ⟨old,hu,hid⟩ | ⟨hi,hid⟩
  · exact Or.inl ⟨row,hrow,hst⟩
  · exact Or.inr (Or.inl ⟨old,row,hu,hid,hst⟩)
  · exact Or.inr (Or.inr ⟨row,hi,hid⟩)

theorem requeued_at_commit {site : Site} {ws : List Write} {old new : JobRow}
    (ho : opened (.commit site) ws) (hu : .updateJob old new ∈ ws) (hst : new.status = .queued) :
    ∃ started, site = .requeued old.id started := by
  cases commit_updates ho hu with
  | requeued started text now again => exact ⟨started,rfl⟩
  | _ => simp at hst

/-- A job that a step makes queued has a token from that step. -/
theorem queued_step (hs : Sound s) (ha : Addressed s) (ha' : Addressed s') (hn : Anchored s)
    (hok : Steady s l) (hm : Move threshold s l s') (hq : Queued s'.world.db job) :
    Queued s.world.db job ∨ Token s' job := by
  cases l with
  | call w o out =>
    cases hm with
    | @call _ m p c k _ _ r σ hw hv he =>
      have hq : Queued σ.db job := hq
      by_cases hc : c = .commit
      · subst hc
        obtain ⟨site,rfl⟩ := phase_at_commit hv
        have hop := hs.opened.workers w
        have hh := hs.engaged.holds w
        have hself := hn w
        rw [hw] at hop hh hself
        obtain ⟨-,rfl⟩ | ⟨-,rfl,-⟩ := exec_commit he
        · rcases queued_of_commit hs hq with hq | ⟨old,row,hu,rfl,hst⟩ | ⟨row,hi,-⟩
          · exact Or.inl hq
          · obtain ⟨started,rfl⟩ := requeued_at_commit hop hu hst
            have hj := ha.jobs w m old.id (by rw [hw]; rfl) (by rw [hw]; rfl)
            have hun : s.world.unsettled w = some m := by
              refine (hself.2.1 old.id rfl).resolve_right (fun hf => ?_)
              obtain ⟨row',hrow',hact⟩ := hf
              obtain ⟨⟨_,hcopy⟩,hcur⟩ := hh
              obtain rfl := Option.some.inj (hcur.symm.trans hrow')
              rw [hcopy.status] at hact
              cases hact
            refine Or.inr (token_of_kept ha' (w := w) (m := m) (p := k r)
              (by simp [State.setWorker]) hun hj ?_)
            cases hv
            cases r <;> rfl
          · exact absurd hi (worker_inserts_nothing hop)
        · exact Or.inl hq
      · rw [(exec_effect he).db hc] at hq
        exact Or.inl hq
  | serve q o out =>
    cases hm with
    | @serve _ x c k _ _ r σ hx hv he =>
      have hq : Queued σ.db job := hq
      by_cases hc : c = .commit
      · subst hc
        have hop := hs.opened.requests q
        rw [hx] at hop
        obtain ⟨htook,rfl⟩ | ⟨-,rfl,-⟩ := exec_commit he
        · rcases queued_of_commit hs hq with hq | ⟨old,row,hu,-⟩ | ⟨row,hi,hid⟩
          · exact Or.inl hq
          · rcases stage_at_commit hv hop with hws | ⟨_,-,hws⟩ | ⟨_,_,_,-,hws,-⟩ <;>
              simp [hws, -mem_writesOf] at hu
          · rcases stage_at_commit hv hop with hws | ⟨z,hz,hws⟩ | ⟨_,_,_,-,hws,-⟩
            · simp [hws, -mem_writesOf] at hi
            · obtain rfl : row = z := by simpa [hws, -mem_writesOf] using hi
              obtain ⟨account,stage⟩ := x
              obtain rfl : stage = .commitJob row := hz
              have hout : out = .ok := by
                cases out with
                | ok => rfl
                | raises f => cases htook
                | raisesAfter f => exact absurd rfl (hok.2 (by rw [hx]; rfl) f)
              subst hout
              cases hv
              cases he
              have hann : announces ((s.setStage q account (.enqueueJob row)).requests q) =
                  some row := by simp [State.setStage, announces]
              exact Or.inr (.created hann hid)
            · simp [hws, -mem_writesOf] at hi
        · exact Or.inl hq
      · rw [(exec_effect he).db hc] at hq
        exact Or.inl hq
  | _ =>
    rw [(move_idle hm (by simp) (by simp)).db] at hq
    exact Or.inl hq

theorem token_step (hs : Sound s) (ha : Addressed s) (ha' : Addressed s') (hn : Anchored s)
    (hok : Steady s l) (hm : Move threshold s l s') (hq : Queued s.world.db job)
    (h : Token s job) : Token s' job := by
  cases h with
  | ready hx hj => exact ready_kept hm hx hj
  | created hr hj => exact created_step hok hm hr hj
  | @held w m hu hj hw =>
    refine Carries.step hs ha ha' hn hok hm hq (w := w) (m := m) ⟨hu,?_⟩ hj
    have hself := hn w
    cases hx : s.workers w with
    | received x =>
      rw [hx] at hself
      obtain rfl := Option.some.inj (hu.symm.trans hself)
      exact Or.inl rfl
    | handling x p =>
      rw [hx] at hself hw
      obtain rfl := hself.1 m hu
      refine Or.inr ⟨p,rfl,?_⟩
      simp only [undecided, Bool.and_eq_true, Bool.not_eq_true'] at hw
      exact hw.1
    | _ =>
      rw [hx] at hw
      cases hw
  | @retry w m p hw hp hu =>
    have hphase : phaseJob p = some job ∧ dropping p = false := by
      cases p with
      | close site e => cases site <;> cases e <;> first | exact ⟨hp,rfl⟩ | cases hp
      | enqueue j started => exact ⟨hp,rfl⟩
      | _ => cases hp
    have hj := ha.jobs w m job (by rw [hw]; rfl) (by rw [hw]; exact hphase.1)
    exact Carries.step hs ha ha' hn hok hm hq (w := w) (m := m) ⟨hu,Or.inr ⟨p,hw,hphase.2⟩⟩ hj

theorem anchored_init : Anchored init := fun _ => trivial

/-- In a steady run every worker keeps the message of the job it works on,
and every queued job has a token. -/
theorem tokens_of_trail {t : List (State × Label)} (ht : Trail (step threshold) init t s)
    (ha : Allowed Steady t) : Anchored s ∧ ∀ j, Queued s.world.db j → Token s j := by
  refine ht.invariant Steady (I := fun s => Anchored s ∧ ∀ j, Queued s.world.db j → Token s j)
    ⟨anchored_init,?_⟩ (fun s l s' hr hs hok hstep => ?_) ha
  · rintro j ⟨row,hrow,-⟩
    cases hrow
  · have hm := step_move hstep
    have hsound := sound_of_reachable hr
    have hadd := addressed_of_reachable hr
    have hadd' := addressed_of_reachable (hr.next hstep)
    refine ⟨hs.1.step hsound ?_ hm,fun j hq => ?_⟩
    · rintro w rfl
      exact hok
    · rcases queued_step hsound hadd hadd' hs.1 hok hm hq with hq | htok
      · exact token_step hsound hadd hadd' hs.1 hok hm hq (hs.2 j hq)
      · exact htok

/-- No queued job is lost: in every state of a steady run every queued job
has a token. -/
theorem queued_has_token {t : List (State × Label)} (ht : Trail (step threshold) init t s)
    (ha : Allowed Steady t) (j : Uuid) (row : JobRow) (hrow : s.world.db.jobs.get j = some row)
    (hq : row.status = .queued) : Token s j :=
  (tokens_of_trail ht ha).2 j ⟨row,hrow,hq⟩

end Preservation

/-- What is left of a steady run when a producer whose commit raises is not
known to have committed nothing. -/
def Assured (s : State) : Label → Prop
  | .lose _ => False
  | .abort r => announces (s.requests r) = none
  | .call w _ out => enqueues (s.workers w) = true → out = .ok
  | .serve r _ out => announces (s.requests r) ≠ none → out = .ok
  | _ => True

instance (s : State) : (l : Label) → Decidable (Assured s l)
  | .lose _ => inferInstanceAs (Decidable False)
  | .abort r => inferInstanceAs (Decidable (announces (s.requests r) = none))
  | .call w _ out => inferInstanceAs (Decidable (enqueues (s.workers w) = true → out = .ok))
  | .serve r _ out => inferInstanceAs (Decidable (announces (s.requests r) ≠ none → out = .ok))
  | .deliver .. | .begin _ | .loop _ | .stop _ | .die _ | .duplicate _ | .inject _ | .arrive ..
  | .receive _ | .upload .. => inferInstanceAs (Decidable True)

def publishesNone : Worker → Bool
  | .handling _ p => (retrying p).isNone
  | _ => true

def silentAt (s : State) (k : ℕ) : Bool :=
  (s.world.unsettled k).isNone && publishesNone (s.workers k) && (announces (s.requests k)).isNone

theorem silent_after {ls : List Label} {n : ℕ} (hrun : (run (step 100) init ls).isSome = true)
    (hbelow : ls.all (below n) = true) (hfirst : (List.range n).all (silentAt (after ls)) = true)
    (k : ℕ) : (after ls).world.unsettled k = none ∧ publishesNone ((after ls).workers k) = true ∧
      announces ((after ls).requests k) = none := by
  by_cases hk : n ≤ k
  · obtain ⟨hw,hu,hr⟩ := untouched_after hrun hbelow hk
    exact ⟨hu,by rw [hw]; rfl,by rw [hr]; rfl⟩
  · have := List.all_eq_true.mp hfirst k (List.mem_range.mpr (by omega))
    simpa [silentAt, Option.isNone_iff_eq_none, and_assoc] using this

/-- The commit of the request takes effect and raises, so the request is
answered 503 and publishes nothing. -/
def lostReplyRun : List Label :=
  uploadRun++.arrive 1 7 (.processDocument 1 [.markdown])::List.replicate 3 (.serve 1 {} .ok)++
    [.serve 1 { uuid := 2 } .ok,.serve 1 {} (.raisesAfter .mapped)]++
    List.replicate 3 (.serve 1 {} .ok)

theorem committed_job_lost :
    ∃ t row, Trail (step 100) init t (after lostReplyRun) ∧ Allowed Assured t ∧
      (after lostReplyRun).world.db.jobs.get 2 = some row ∧ row.status = .queued ∧
      ¬ Token (after lostReplyRun) 2 := by
  have hpass : passes (step 100) (fun s l => decide (Assured s l)) init lostReplyRun = true := by
    decide +kernel
  obtain ⟨t,ht,ha,-⟩ := trail_of_passes lostReplyRun hpass
  have hrun : ((run (step 100) init lostReplyRun).isSome && lostReplyRun.all (below 2) &&
      (after lostReplyRun).world.ready.isEmpty &&
      (List.range 2).all (silentAt (after lostReplyRun)) &&
      ((after lostReplyRun).world.db.jobs.get 2).any (fun row => row.status = .queued)) = true := by
    decide +kernel
  simp only [Bool.and_eq_true, List.isEmpty_iff] at hrun
  obtain ⟨⟨⟨⟨hsome,hbelow⟩,hready⟩,hfirst⟩,hany⟩ := hrun
  obtain ⟨row,hrow,hq⟩ := (Option.any_eq_true _ _).mp hany
  have hsilent := silent_after hsome hbelow hfirst
  refine ⟨t,row,ht,fun x hx => of_decide_eq_true (ha x hx),hrow,by simpa using hq,fun h => ?_⟩
  cases h with
  | ready hm _ => simp [hready] at hm
  | held hu _ _ => simp [(hsilent _).1] at hu
  | retry _ _ hu => simp [(hsilent _).1] at hu
  | created hr _ => simp [(hsilent _).2.2] at hr

def smooth : Label → Bool
  | .lose _ | .abort _ => false
  | .call _ _ out | .serve _ _ out => out = .ok
  | _ => true

theorem steady_of_smooth {l : Label} (h : smooth l = true) (s : State) : Steady s l := by
  cases l with
  | call w o out =>
    obtain rfl : out = .ok := by simpa [smooth] using h
    exact fun _ => rfl
  | serve r o out =>
    obtain rfl : out = .ok := by simpa [smooth] using h
    exact ⟨fun _ => rfl,fun _ _ => by simp⟩
  | lose w => cases h
  | abort r => cases h
  | _ => trivial

def crashRun : List Label := publishRun++[.deliver 0 0,.begin 0]++[.call 0 {} .ok,.die 0]

theorem queued_has_token_sample :
    ∃ row, (after crashRun).world.db.jobs.get 2 = some row ∧ row.status = .queued ∧
      Token (after crashRun) 2 := by
  have hsome : (run (step 100) init crashRun).isSome = true := by decide +kernel
  obtain ⟨s,hs⟩ := Option.isSome_iff_exists.mp hsome
  obtain ⟨t,ht,hl⟩ := trail_of_run crashRun hs
  have hall : crashRun.all smooth = true := by decide +kernel
  have ha : Allowed Steady t := allowed_of_labels hl
    (fun s l hl => steady_of_smooth (List.all_eq_true.mp hall l hl) s)
  have hany : ((after crashRun).world.db.jobs.get 2).any (fun row => row.status = .queued) = true := by
    decide +kernel
  obtain ⟨row,hrow,hq⟩ := (Option.any_eq_true _ _).mp hany
  simp only [decide_eq_true_eq] at hq
  have hafter : after crashRun = s := by rw [after, hs]; rfl
  rw [hafter] at hrow ⊢
  exact ⟨row,hrow,hq,queued_has_token ht ha 2 row hrow hq⟩

end DocPipeline.Tokens
