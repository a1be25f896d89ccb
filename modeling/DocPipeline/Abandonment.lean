import DocPipeline.RetryLoop

/-!
# Abandoned jobs stay abandoned

A started job that no live worker holds, and a queued job that nothing will
bring to a worker, are final: no continuation changes their row, runs them
again or commits another job for their document. A started row is changed by
its holder only, and a queued row by a worker that a message has reached.
-/

set_option autoImplicit false

namespace DocPipeline.Abandonment
open DocPipeline.Identifiers DocPipeline.Records DocPipeline.Database DocPipeline.Calls
open DocPipeline.Consumer DocPipeline.Routes DocPipeline.System DocPipeline.Moves
open DocPipeline.Effects DocPipeline.Answers DocPipeline.Transactions DocPipeline.Pending
open DocPipeline.Reservations DocPipeline.Stances DocPipeline.Engagement DocPipeline.Knowledge
open DocPipeline.Ledger DocPipeline.Bookkeeping DocPipeline.Exclusion DocPipeline.Publication
open DocPipeline.Budget DocPipeline.Tokens LabelledRuns EffectProgram

section Rows
variable {threshold : ℕ} {s s' : State} {l : Label}

/-- What a step can do to a committed row: nothing, or the commit of a worker
that claims it from the queue or has it in hand. -/
theorem row_step (hs : Sound s) (hm : Move threshold s l s') {j : Uuid} {row : JobRow}
    (hrow : s.world.db.jobs.get j = some row) :
    s'.world.db.jobs.get j = some row ∨
      ∃ w m site, s.workers w = .handling m (.commit site) ∧ (∃ o out, l = .call w o out) ∧
        ((row.status = .queued ∧ ∃ started, site = .claimed j started) ∨
          stance (.commit site) = .running j row) := by
  have hiso := hs.guarded.fenced.isolated
  cases l with
  | call w o out =>
    cases hm with
    | @call _ m p c k _ _ r σ hw hv he =>
      by_cases hc : c = .commit
      · subst hc
        obtain ⟨site,rfl⟩ := phase_at_commit hv
        obtain ⟨-,rfl⟩ | ⟨-,rfl,-⟩ := exec_commit he
        · by_cases hu : ∃ old new, .updateJob old new ∈ s.world.writesOf (.worker w) ∧ old.id = j
          · obtain ⟨old,new,hu,rfl⟩ := hu
            refine Or.inr ⟨w,m,site,hw,⟨o,out,rfl⟩,?_⟩
            obtain ⟨hget,-⟩ := commit_jobs_updated hs.guarded.fenced hu
            obtain rfl := Option.some.inj (hget.symm.trans hrow)
            have hop := hs.opened.workers w
            have hh := hs.engaged.holds w
            rw [hw] at hop hh
            rcases update_at_commit hop hu with ⟨rfl,hq⟩ | ⟨-,started,hrun⟩
            · exact Or.inl ⟨hq,new,rfl⟩
            · have hcur : Current s.world.db old.id started := by
                change Holds _ (stance (.commit site)) at hh
                rw [hrun] at hh
                exact hh.2
              obtain rfl := Option.some.inj (hcur.symm.trans hrow)
              exact Or.inr hrun
          · refine Or.inl (jobs_kept (hiso.own _) (hiso.ready _) hrow ?_)
            exact fun old new hx hid => hu ⟨old,new,hx,hid⟩
        · exact Or.inl hrow
      · exact Or.inl (by rw [← (exec_effect he).db hc] at hrow; exact hrow)
  | serve q o out =>
    cases hm with
    | @serve _ x c k _ _ r σ hq hv he =>
      by_cases hc : c = .commit
      · subst hc
        have hop := hs.opened.requests q
        rw [hq] at hop
        obtain ⟨-,rfl⟩ | ⟨-,rfl,-⟩ := exec_commit he
        · refine Or.inl (jobs_kept (hiso.own _) (hiso.ready _) hrow (fun old new hu => ?_))
          rcases stage_at_commit hv hop with hws | ⟨_,-,hws⟩ | ⟨_,_,_,-,hws,-⟩ <;>
            simp [hws, -mem_writesOf] at hu
        · exact Or.inl hrow
      · exact Or.inl (by rw [← (exec_effect he).db hc] at hrow; exact hrow)
  | _ => exact Or.inl (by rw [(move_idle hm (by simp) (by simp)).db]; exact hrow)

/-- A claim of a job begins with a queued row. -/
theorem Claiming.queued (hs : Sound s) {w : ℕ} {j : Uuid} {started : JobRow}
    (hc : Claiming s l s' w j started) : Queued s.world.db j := by
  obtain ⟨m,hw⟩ := hc.before
  have hop := hs.opened.workers w
  rw [hw] at hop
  obtain ⟨old,hws,now,again,rfl,hst,-⟩ := hop
  have hu : Write.updateJob old started ∈ s.world.writesOf (.worker w) := by
    simp [hws, -mem_writesOf]
  exact ⟨old,(commit_jobs_updated hs.guarded.fenced hu).1,hst⟩

end Rows

structure Stranded (s : State) (j : Uuid) (row : JobRow) : Prop where
  stored : s.world.db.jobs.get j = some row
  status : row.status = .started
  unclaimed : ∀ w, (stanceOf (s.workers w)).claim ≠ some (j,row)

def handles (j : Uuid) : Worker → Prop
  | .received m => m.jobId = some j
  | .handling _ p => phaseJob p = some j
  | _ => False

structure Forgotten (s : State) (j : Uuid) (row : JobRow) : Prop where
  stored : s.world.db.jobs.get j = some row
  status : row.status = .queued
  ready : ∀ m ∈ s.world.ready, m.jobId ≠ some j
  unsettled : ∀ w m, s.world.unsettled w = some m → m.jobId ≠ some j
  workers : ∀ w, ¬ handles j (s.workers w)
  requests : ∀ r x, announces (s.requests r) = some x → x.id ≠ j

/-- The outside world publishes no message for the job. -/
def Spared (j : Uuid) : Label → Prop
  | .inject body => Message.jobId ⟨body,.outside⟩ ≠ some j
  | _ => True

section Steps
variable {threshold : ℕ} {s s' : State} {l : Label} {j : Uuid} {row : JobRow}

theorem Stranded.step (h : Stranded s j row) (hs : Sound s) (hm : Move threshold s l s') :
    Stranded s' j row := by
  refine ⟨?_,h.status,fun w hc => ?_⟩
  · rcases row_step hs hm h.stored with hrow | ⟨w,m,site,hw,-,⟨hq,-⟩ | hrun⟩
    · exact hrow
    · rw [h.status] at hq
      cases hq
    · refine absurd ?_ (h.unclaimed w)
      rw [hw]
      exact congrArg Stance.claim hrun
  · rcases claim_step hm hc with hc | hnew
    · exact h.unclaimed w hc
    · obtain ⟨old,hold,hq⟩ := Claiming.queued hs hnew
      obtain rfl := Option.some.inj (hold.symm.trans h.stored)
      rw [h.status] at hq
      cases hq

theorem Forgotten.ready_step (h : Forgotten s j row) (hm : Move threshold s l s')
    (hsp : Spared j l) : ∀ m ∈ s'.world.ready, m.jobId ≠ some j := by
  intro m hr
  cases ready_origin hm hr with
  | ready hr => exact h.ready m hr
  | unsettled hu => exact h.unsettled _ m hu
  | @retry w x i started hw hb =>
    rw [Message.jobId, hb, decode_retryPayload]
    rintro ⟨⟩
    exact h.workers w (by rw [hw]; rfl)
  | @newJob r account i hq hb =>
    rw [Message.jobId, hb, decode_newJobPayload]
    exact fun heq => h.requests r i (by rw [hq]; rfl) (Option.some.inj heq)
  | injected hl hb =>
    subst hl hb
    exact hsp

theorem Forgotten.unsettled_step (h : Forgotten s j row) (hm : Move threshold s l s') :
    ∀ w m, s'.world.unsettled w = some m → m.jobId ≠ some j := by
  intro w m hu
  rcases unsettled_origin hm hu with hu | hr
  · exact h.unsettled w m hu
  · exact h.ready m hr

theorem Forgotten.workers_step (h : Forgotten s j row) (hm : Move threshold s l s') (w : ℕ) :
    ¬ handles j (s'.workers w) := by
  by_cases hl : workerAt l = some w
  · cases hm with
    | deliver hw hu hi =>
      obtain rfl := Option.some.inj hl
      simpa [State.setWorker, handles] using h.ready _ (List.mem_of_getElem? hi)
    | @begin v m hw =>
      obtain rfl := Option.some.inj hl
      have hx := h.workers v
      rw [hw] at hx
      simp only [State.setWorker, Function.update_self]
      exact fun hp => hx (phaseJob_start hp)
    | @call v m p c k o out r σ hw hv he =>
      obtain rfl := Option.some.inj hl
      have hx := h.workers v
      rw [hw] at hx
      simp only [State.setWorker, Function.update_self]
      exact fun hp => hx (phaseJob_call hv _ hp)
    | loop hw =>
      obtain rfl := Option.some.inj hl
      simp [State.setWorker, handles]
    | stop hw =>
      obtain rfl := Option.some.inj hl
      simp [State.endWorker, State.setWorker, handles]
    | die hw =>
      obtain rfl := Option.some.inj hl
      simp [State.endWorker, State.setWorker, handles]
    | lose hw hu => exact h.workers w
    | _ => cases hl
  · rw [(frame_worker hm hl).1]
    exact h.workers w

theorem Forgotten.requests_step (h : Forgotten s j row) (hs : Sound s) (hm : Move threshold s l s')
    {q : ℕ} {x : JobRow} (hq : announces (s'.requests q) = some x) : x.id ≠ j := by
  cases l with
  | serve r o out =>
    cases hm with
    | @serve _ y c k _ _ z σ hx hv he =>
      by_cases hqr : q = r
      · subst hqr
        simp only [State.setStage, Function.update_self] at hq
        obtain ⟨hstage,-⟩ := announces_serve hv hq
        obtain ⟨account,stage⟩ := y
        obtain rfl : stage = .commitJob x := hstage
        have hop := hs.opened.requests q
        rw [hx] at hop
        -- the row it inserts is not committed yet
        obtain ⟨hfresh,-⟩ := hs.guarded.fenced.isolated.ready (.request q) (.insertJob x)
          (by rw [hop.1]; exact List.mem_singleton_self _)
        rintro rfl
        rw [h.stored] at hfresh
        cases hfresh
      · simp only [State.setStage, Function.update_of_ne hqr] at hq
        exact h.requests q x hq
  | call w o out =>
    rw [frame_request hm (by simp [requestAt])] at hq
    exact h.requests q x hq
  | _ =>
    rcases (move_idle hm (by simp) (by simp)).requests q with he | ⟨y,he,hf⟩
    · rw [he] at hq
      exact h.requests q x hq
    · rw [he, announces_fresh hf] at hq
      cases hq

theorem Forgotten.step (h : Forgotten s j row) (hs : Sound s) (hm : Move threshold s l s')
    (hsp : Spared j l) : Forgotten s' j row where
  stored := by
    rcases row_step hs hm h.stored with hrow | ⟨w,m,site,hw,-,⟨-,started,rfl⟩ | hrun⟩
    · exact hrow
    · exact absurd (by rw [hw]; rfl) (h.workers w)
    · have hh := hs.engaged.holds w
      rw [hw] at hh
      change Holds _ (stance (.commit site)) at hh
      rw [hrun] at hh
      exact absurd ⟨row,h.stored,h.status⟩ (holds_not_queued hh (Or.inl rfl))
  status := h.status
  ready := h.ready_step hm hsp
  unsettled := h.unsettled_step hm
  workers := h.workers_step hm
  requests _ _ hq := h.requests_step hs hm hq

/-- Nobody enters `process` for the job. -/
theorem calls_kept (hs : Sound s) (hm : Move threshold s l s')
    (h : Stranded s j row ∨ Forgotten s j row) :
    s'.world.history.countP (calls j) = s.world.history.countP (calls j) := by
  rw [countP_calls, countP_calls]
  rcases calls_step hm with he | ⟨w,m,i,started,hw,-,he⟩
  · rw [he]
  · rw [he, List.countP_cons_of_neg]
    simp only [decide_eq_true_eq]
    rintro rfl
    have hh := hs.engaged.holds w
    rw [hw] at hh
    have hcur : Current s.world.db i started := hh.2
    rcases h with h | h
    · obtain rfl := Option.some.inj (hcur.symm.trans h.stored)
      exact h.unclaimed w (by rw [hw]; rfl)
    · exact h.workers w (by rw [hw]; rfl)

/-- The row of an abandoned job is active and its owner is that of the
document. -/
theorem abandoned_active (h : Stranded s j row ∨ Forgotten s j row) :
    s.world.db.jobs.get j = some row ∧ row.status.active = true := by
  rcases h with h | h
  · exact ⟨h.stored,by rw [h.status]; rfl⟩
  · exact ⟨h.stored,by rw [h.status]; rfl⟩

theorem owner_eq {db : Tables} {log : List Event} (hb : Book db log)
    (hrow : db.jobs.get j = some row) {document : Uuid} {account : AccountId}
    (hdoc : document = row.documentId)
    (hd : ∃ d, db.documents.get document = some d ∧ d.accountId = account) :
    account = row.accountId := by
  obtain ⟨d,hd,rfl⟩ := hd
  obtain ⟨d',hd',hacc⟩ := book_owner hb hrow
  rw [hdoc] at hd
  obtain rfl := Option.some.inj (hd.symm.trans hd')
  exact hacc

/-- While a job of the document is active, a step inserts no job for it. -/
theorem rows_kept (hs : Sound s) (hb : Book s.world.db s.world.history)
    (hm : Move threshold s l s') (hrow : s.world.db.jobs.get j = some row)
    (hact : row.status.active = true) {i : Uuid} {x : JobRow}
    (hx : s'.world.db.jobs.get i = some x) (hdoc : x.documentId = row.documentId) :
    ∃ y, s.world.db.jobs.get i = some y ∧ y.documentId = row.documentId := by
  rcases step_ledger hs hm with ⟨hdb,-⟩ | ⟨es,hp,-⟩
  · rw [hdb] at hx
    exact ⟨x,hx,hdoc⟩
  · rcases posting_jobs hp with ⟨hjobs,-⟩ | ⟨y,ho⟩ | ⟨w,old,new,hsh⟩
    · rw [hjobs] at hx
      exact ⟨x,hx,hdoc⟩
    · rw [ho.jobs] at hx
      split at hx
      · obtain rfl := Option.some.inj hx
        have hacc := owner_eq hb hrow hdoc ho.owner
        exact absurd hdoc.symm (noActive_iff.mp ho.index j row hrow hact hacc.symm)
      · exact ⟨x,hx,hdoc⟩
    · rw [hsh.jobs] at hx
      split at hx
      · rename_i hid
        subst hid
        obtain rfl := Option.some.inj hx
        exact ⟨old,hsh.row,hsh.replaces.document.symm.trans hdoc⟩
      · exact ⟨x,hx,hdoc⟩

/-- The insert of a request for the document of an active job does not succeed. -/
theorem insert_refused (hs : Sound s) (hb : Book s.world.db s.world.history)
    (hrow : s.world.db.jobs.get j = some row) (hact : row.status.active = true) {q : ℕ}
    {account : AccountId} {dto : CreateJobDTO} {d : DocumentRow} {o : Oracle} {out : Outcome}
    (hq : s.requests q = some ⟨account,.insertJob dto d⟩)
    (hdoc : dto.documentId = row.documentId)
    (hm : Move threshold s (.serve q o out) s') :
    ∃ e, s'.requests q = some ⟨account,.rollback false e⟩ ∧ (out = .ok → e = .activeJobExists) := by
  have hk := hs.informed.requests q
  rw [hq] at hk
  obtain ⟨hfiled,-⟩ := hk
  have hacc := owner_eq hb hrow hdoc ⟨d,hfiled⟩
  have hexists : s.world.db.activeJobExists dto.accountId dto.documentId = true := by
    cases hx : s.world.db.activeJobExists dto.accountId dto.documentId with
    | true => rfl
    | false => exact absurd hdoc.symm (noActive_iff.mp hx j row hrow hact hacc.symm)
  cases hm with
  | @serve _ x c k _ _ r σ hx hv he =>
    obtain rfl := Option.some.inj (hq.symm.trans hx)
    cases hv
    cases r with
    | ok job =>
      obtain ⟨-,hno,-⟩ := ok_createJob he
      rw [hexists] at hno
      cases hno
    | error e =>
      refine ⟨e,by simp [State.setStage],fun hout => ?_⟩
      subst hout
      simp only [exec, serve, hexists, if_true] at he
      split at he
      · cases he
      · obtain ⟨he,-⟩ := Prod.mk.inj (Option.some.inj he)
        exact (Except.error.inj he).symm

end Steps

section Continuations
variable {threshold : ℕ} {s s' : State} {t : List (State × Label)}

structure Remains (s : State) (j : Uuid) (row : JobRow) (s' : State) : Prop where
  abandoned : Stranded s' j row ∨ Forgotten s' j row
  calls : s'.world.history.countP (calls j) = s.world.history.countP (calls j)
  rows : ∀ i x, s'.world.db.jobs.get i = some x → x.documentId = row.documentId →
    ∃ y, s.world.db.jobs.get i = some y

theorem remains_onward (hr : Reachable (step threshold) init s) {j : Uuid} {row : JobRow}
    (ok : State → Label → Prop)
    (hok : ∀ s l s', Reachable (step threshold) init s → Stranded s j row ∨ Forgotten s j row →
      ok s l → step threshold s l = some s' → Stranded s' j row ∨ Forgotten s' j row)
    (h : Stranded s j row ∨ Forgotten s j row) (ht : Trail (step threshold) s t s')
    (ha : Allowed ok t) : Remains s j row s' := by
  refine ht.onward ok (I := Remains s j row) hr ⟨h,rfl,fun i x hx _ => ⟨x,hx⟩⟩ ?_ ha
  intro a l b hra hi hla hstep
  have hs := sound_of_reachable hra
  have hb := book_of_reachable hra
  obtain ⟨hrow,hact⟩ := abandoned_active hi.abandoned
  refine ⟨hok a l b hra hi.abandoned hla hstep,?_,fun i x hx hdoc => ?_⟩
  · rw [calls_kept hs (step_move hstep) hi.abandoned]
    exact hi.calls
  · obtain ⟨y,hy,hdoc'⟩ := rows_kept hs hb (step_move hstep) hrow hact hx hdoc
    exact hi.rows i y hy hdoc'

/-- The broker takes a delivery back only from a worker that settles it,
stops or dies. -/
def Retained (_ : State) : Label → Prop
  | .lose _ => False
  | _ => True

/-- Then a worker that works on a queued job has its message unsettled. -/
theorem handles_unsettled {j : Uuid} (ht : Trail (step threshold) init t s)
    (ha : Allowed Retained t) (hq : Queued s.world.db j) {w : ℕ} (h : handles j (s.workers w)) :
    ∃ m, s.world.unsettled w = some m ∧ m.jobId = some j := by
  have hanch : Anchored s := by
    refine ht.invariant Retained anchored_init (fun s l s' hr hs hok hstep => ?_) ha
    refine hs.step (sound_of_reachable hr) ?_ (step_move hstep)
    rintro v rfl
    exact hok
  have hself := hanch w
  cases hx : s.workers w with
  | received m =>
    rw [hx] at h hself
    exact ⟨m,hself,h⟩
  | handling m p =>
    rw [hx] at h hself
    have hjob := (addressed_of_reachable ⟨t,ht⟩).jobs w m j (by rw [hx]; rfl) (by rw [hx]; exact h)
    refine ⟨m,(hself.2.1 j h).resolve_right (fun hf => finished_not_queued hf hq),hjob⟩
  | _ =>
    rw [hx] at h
    cases h

theorem stranded_of_unheld {j : Uuid} {row : JobRow} (hr : Reachable (step threshold) init s)
    (hrow : s.world.db.jobs.get j = some row) (hst : row.status = .started)
    (hno : ∀ w, ¬ HoldsClaim s w j) : Stranded s j row := by
  refine ⟨hrow,hst,fun w hc => hno w ⟨fun hd => ?_,_,recorded_of_reachable hr w j row hc hrow⟩⟩
  rw [hd] at hc
  cases hc

/-- Abandoned jobs are final. A job is abandoned if it is started and no live
worker holds its claim, or if it is queued and no message, worker or request
is left that could bring it to a worker; a delivery that its worker still
works on counts as unsettled, which needs no mention where the broker keeps
deliveries. In every continuation the row stays as it is, `process` is not
called for the job, and no other job of its document is committed. -/
theorem abandoned_forever {t₀ : List (State × Label)} (ht₀ : Trail (step threshold) init t₀ s)
    (j : Uuid) (row : JobRow) (hrow : s.world.db.jobs.get j = some row)
    (h : (row.status = .started ∧ ∀ w, ¬ HoldsClaim s w j) ∨
      (row.status = .queued ∧ (∀ m ∈ s.world.ready, m.jobId ≠ some j) ∧
        (∀ w m, s.world.unsettled w = some m → m.jobId ≠ some j) ∧
        (∀ r x, announces (s.requests r) = some x → x.id ≠ j) ∧
        (Allowed Retained t₀ ∨ ∀ w, ¬ handles j (s.workers w))))
    (ht : Trail (step threshold) s t s')
    (ha : row.status = .queued → Allowed (fun _ l => Spared j l) t) :
    s'.world.db.jobs.get j = some row ∧
    s'.world.history.countP (calls j) = s.world.history.countP (calls j) ∧
    (∀ i x, s'.world.db.jobs.get i = some x → x.documentId = row.documentId →
      ∃ y, s.world.db.jobs.get i = some y) ∧
    ∀ q account dto d o out s'', s'.requests q = some ⟨account,.insertJob dto d⟩ →
      dto.documentId = row.documentId → step threshold s' (.serve q o out) = some s'' →
      ∃ e, s''.requests q = some ⟨account,.rollback false e⟩ ∧
        (out = .ok → e = .activeJobExists) := by
  have hr : Reachable (step threshold) init s := ⟨t₀,ht₀⟩
  have hr' : Reachable (step threshold) init s' := ⟨_,ht₀.trans ht⟩
  have hrem : Remains s j row s' := by
    rcases h with ⟨hst,hno⟩ | ⟨hst,hready,hun,hreq,hdel⟩
    · refine remains_onward hr (fun _ _ => True) ?_
        (Or.inl (stranded_of_unheld hr hrow hst hno)) ht (fun _ _ => trivial)
      rintro a l b hra (hx | hx) - hstep
      · exact Or.inl (hx.step (sound_of_reachable hra) (step_move hstep))
      · have := hx.status
        rw [hst] at this
        cases this
    · have hwork : ∀ w, ¬ handles j (s.workers w) := by
        rcases hdel with hdel | hdel
        · intro w hw
          obtain ⟨m,hu,hj⟩ := handles_unsettled ht₀ hdel ⟨row,hrow,hst⟩ hw
          exact hun w m hu hj
        · exact hdel
      refine remains_onward hr (fun _ l => Spared j l) ?_
        (Or.inr ⟨hrow,hst,hready,hun,hwork,hreq⟩) ht (ha hst)
      rintro a l b hra (hx | hx) hsp hstep
      · have := hx.status
        rw [hst] at this
        cases this
      · exact Or.inr (hx.step (sound_of_reachable hra) (step_move hstep) hsp)
  obtain ⟨hrow',hact⟩ := abandoned_active hrem.abandoned
  refine ⟨hrow',hrem.calls,hrem.rows,fun q account dto d o out s'' hq hdoc hstep => ?_⟩
  exact insert_refused (sound_of_reachable hr') (book_of_reachable hr') hrow' hact hq hdoc
    (step_move hstep)

end Continuations

/-- The broker takes the delivery back from worker 0, which has begun its
handler. Worker 1 runs the job, which fails, and cannot publish the retry. -/
def recallRun : List Label := List.flatten [publishRun,
  [.deliver 0 0,.begin 0,.lose 0,.deliver 1 0,.begin 1],List.replicate 6 (.call 1 {} .ok),
  [.call 1 {} (.raises .mapped)],List.replicate 5 (.call 1 {} .ok),
  [.call 1 {} (.raises .mapped),.call 1 {} .ok,.loop 1]]

def resumeLabels : List Label := List.replicate 6 (.call 0 {} .ok)

theorem recalled_job_claimed :
    Reachable (step 100) init (after recallRun) ∧
    (after recallRun).world.ready = [] ∧ (∀ w, (after recallRun).world.unsettled w = none) ∧
    (∀ w, publishesNone ((after recallRun).workers w) = true) ∧
    (∀ r, announces ((after recallRun).requests r) = none) ∧
    ∃ t row row', (after recallRun).world.db.jobs.get 2 = some row ∧ row.status = .queued ∧
      Trail (step 100) (after recallRun) t (after (recallRun++resumeLabels)) ∧
      (after (recallRun++resumeLabels)).world.db.jobs.get 2 = some row' ∧
      row'.status = .started := by
  have hrun : ((run (step 100) init (recallRun++resumeLabels)).isSome && recallRun.all (below 2) &&
      (after recallRun).world.ready.isEmpty && (List.range 2).all (silentAt (after recallRun)) &&
      ((after recallRun).world.db.jobs.get 2).any (fun row => row.status = .queued) &&
      ((after (recallRun++resumeLabels)).world.db.jobs.get 2).any
        (fun row => row.status = .started)) = true := by decide +kernel
  simp only [Bool.and_eq_true, List.isEmpty_iff] at hrun
  obtain ⟨⟨⟨⟨⟨hsome,hbelow⟩,hready⟩,hfirst⟩,hbefore⟩,hlater⟩ := hrun
  obtain ⟨row,hrow,hq⟩ := (Option.any_eq_true _ _).mp hbefore
  obtain ⟨row',hrow',hst⟩ := (Option.any_eq_true _ _).mp hlater
  obtain ⟨hr,ht⟩ := trail_path_append hsome
  have hsilent := silent_after (isSome_of_append hsome) hbelow hfirst
  exact ⟨hr,hready,fun w => (hsilent w).1,fun w => (hsilent w).2.1,fun r => (hsilent r).2.2,_,row,
    row',hrow,by simpa using hq,ht,hrow',by simpa using hst⟩

def strandRun : List Label := claimRun++[.die 0]

def dropRun : List Label := [.deliver 1 0,.begin 1]++List.replicate 4 (.call 1 {} .ok)++[.loop 1]

def forgetRun : List Label := List.flatten [claimRun,[.call 0 {} (.raises .mapped)],
  List.replicate 5 (.call 0 {} .ok),[.call 0 {} (.raises .mapped),.call 0 {} .ok,.loop 0]]

def askAgainLabels : List Label :=
  .arrive 2 7 (.processDocument 1 [.markdown])::List.replicate 4 (.serve 2 { uuid := 9 } .ok)

def mover : Event → Option Proc
  | .moved p _ _ _ _ => some p
  | _ => none

theorem unclaimed_after_strandRun (w : ℕ) : ¬ HoldsClaim (after strandRun) w 2 := by
  have hdead : (step 100 (after strandRun) (.die 0)).isNone = true := by decide +kernel
  have hlog : (after strandRun).world.history.all (fun e => (mover e).all (· = .worker 0)) =
      true := by decide +kernel
  rintro ⟨hw,n,newer,older,hh,-⟩
  have hmem : claimEvent w 2 n ∈ (after strandRun).world.history := by rw [hh]; simp
  have hp := List.all_eq_true.mp hlog _ hmem
  obtain rfl : w = 0 := by simpa [claimEvent, mover] using hp
  cases hx : (after strandRun).workers 0 with
  | dead => exact hw hx
  | _ => simp [step, hx] at hdead

theorem abandoned_forever_sample :
    (∃ row, row.status = .started ∧ (after strandRun).world.db.jobs.get 2 = some row ∧
      (after (strandRun++dropRun)).world.db.jobs.get 2 = some row) ∧
    ∃ row, row.status = .queued ∧ (after forgetRun).world.db.jobs.get 2 = some row ∧
      (after (forgetRun++askAgainLabels)).world.db.jobs.get 2 = some row := by
  constructor
  · have hrun : ((run (step 100) init (strandRun++dropRun)).isSome &&
        ((after strandRun).world.db.jobs.get 2).any (fun row => row.status = .started)) = true := by
      decide +kernel
    simp only [Bool.and_eq_true] at hrun
    obtain ⟨row,hrow,hst⟩ := (Option.any_eq_true _ _).mp hrun.2
    simp only [decide_eq_true_eq] at hst
    have ht₀ : Trail (step 100) init _ (after strandRun) :=
      trail_path strandRun (isSome_of_append hrun.1)
    have hkept := abandoned_forever ht₀ 2 row hrow (Or.inl ⟨hst,unclaimed_after_strandRun⟩)
      (trail_path_append hrun.1).2 (by simp [hst])
    exact ⟨row,hst,hrow,hkept.1⟩
  · have hrun : ((run (step 100) init (forgetRun++askAgainLabels)).isSome &&
        forgetRun.all (below 2) && (after forgetRun).world.ready.isEmpty &&
        (List.range 2).all (silentAt (after forgetRun)) &&
        ((after forgetRun).world.db.jobs.get 2).any (fun row => row.status = .queued)) = true := by
      decide +kernel
    simp only [Bool.and_eq_true, List.isEmpty_iff] at hrun
    obtain ⟨⟨⟨⟨hsome,hbelow⟩,hready⟩,hfirst⟩,hany⟩ := hrun
    obtain ⟨row,hrow,hq⟩ := (Option.any_eq_true _ _).mp hany
    simp only [decide_eq_true_eq] at hq
    have ht₀ : Trail (step 100) init _ (after forgetRun) :=
      trail_path forgetRun (isSome_of_append hsome)
    have hsilent := silent_after (isSome_of_append hsome) hbelow hfirst
    have hretained : ∀ l ∈ forgetRun, ∀ s, Retained s l := by
      have hall : forgetRun.all (fun l => !(l matches .lose _)) = true := by decide
      intro l hl s
      have := List.all_eq_true.mp hall l hl
      cases l <;> trivial
    have hspared : ∀ l ∈ askAgainLabels, Spared 2 l := by
      have hall : askAgainLabels.all (fun l => !(l matches .inject _)) = true := by decide
      intro l hl
      have := List.all_eq_true.mp hall l hl
      cases l <;> trivial
    have hkept := abandoned_forever ht₀ 2 row hrow (Or.inr ⟨hq,by simp [hready],
      fun w m hu => by simp [(hsilent w).1] at hu,fun r x hr => by simp [(hsilent r).2.2] at hr,
      Or.inl (fun x hx => hretained _ (mem_path hx) _)⟩) (trail_path_append hsome).2
      (fun _ x hx => hspared _ (mem_path hx))
    exact ⟨row,hq,hrow,hkept.1⟩

end DocPipeline.Abandonment
