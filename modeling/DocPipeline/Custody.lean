import DocPipeline.Failure

/-!
# Which steps leave a started job without a worker

As long as some live worker has a started job in hand, the job will be
completed, released or failed by it. There are four kinds of steps after which
no worker has it: the death of its worker, a claim whose commit takes effect
and raises, a session that cannot be closed after the claim, and a release
that is not carried out. A worker that is told to stop is none of them.
-/

set_option autoImplicit false

namespace DocPipeline.Custody
open DocPipeline.Identifiers DocPipeline.Records DocPipeline.Database DocPipeline.Calls
open DocPipeline.Consumer DocPipeline.Routes DocPipeline.System DocPipeline.Moves
open DocPipeline.Effects DocPipeline.Answers DocPipeline.Transactions DocPipeline.Pending
open DocPipeline.Reservations DocPipeline.Stances DocPipeline.Engagement DocPipeline.Ledger
open DocPipeline.Exclusion DocPipeline.RetryLoop DocPipeline.Failure
open LabelledRuns EffectProgram

/-- A call that does not cost the worker its job. -/
def Secures (db : Tables) (out : Outcome) : Phase → Prop
  | .commit (.claimed _ _) => ∀ f, out ≠ .raisesAfter f
  | .close (.claimed _ _) none => out = .ok
  | p => Releases db out p

def Keeps (s : State) : Label → Prop
  | .call w _ out => ∀ m p, s.workers w = .handling m p → Secures s.world.db out p
  | .die w => ∀ j row, s.world.db.jobs.get j = some row → ¬ Attends (s.workers w) j row
  | _ => True

section Calls
variable {σ σ' : World} {w : ℕ} {m : Message} {o : Oracle} {out : Outcome} {p : Phase} {c : Call}
  {k : Except Exc c.Resp → Phase} {r : Except Exc c.Resp} {j : Uuid} {row : JobRow}

theorem secures_ok (db : Tables) (p : Phase) : Secures db .ok p := by
  cases p with
  | commit site => cases site <;> first | exact fun f => nofun | exact rfl | trivial
  | close site e => cases site <;> cases e <;> first | rfl | trivial
  | requeue job started e => exact Or.inl rfl
  | fail job started e => exact Or.inl rfl
  | _ => trivial

theorem not_freed {db : Tables} (hrow : db.jobs.get j = some row) (hst : row.status = .started) :
    ¬ Freed db j row := by
  rintro ⟨x,hx,hfree⟩
  obtain rfl := Option.some.inj (hx.symm.trans hrow)
  rcases hfree with ⟨-,hne⟩ | hlt
  · exact hne hst
  · omega

/-- A worker whose attempt goes on, with the row still started, has the job in
hand. -/
theorem attends_of_standing {db : Tables} (h : Standing db j row p) (hf : ¬ Freed db j row) :
    Attends (.handling m p) j row := by
  rcases h with ⟨hc,hl⟩ | ⟨-,hfree⟩
  · have hloose : ¬ loose p := fun h => hf (hl h)
    have hclaim : (stance p).claim = some (j,row) := by
      cases p with
      | close site e => cases site <;> first | exact hc | cases hc
      | _ => exact hc
    cases hs : stance p with
    | away =>
      rw [hs] at hclaim
      cases hclaim
    | running i x =>
      rw [hs] at hclaim
      cases hclaim
      exact Or.inl hs
    | unsure i x =>
      rw [hs] at hclaim
      cases hclaim
      exact Or.inr hs
    | done i x => exact absurd (Or.inl ⟨i,x,hs⟩) hloose
    | after i x => exact absurd (Or.inr ⟨i,x,hs⟩) hloose
  · exact absurd hfree hf

/-- The waiting points at which a worker has a job in hand. -/
theorem claimAt_of_attends (h : Attends (.handling m p) j row) :
    claimAt p = some (j,row) ∨ p = .close (.claimed j row) none := by
  have hclaim : (stance p).claim = some (j,row) := by
    rcases h with h | h <;> exact congrArg Stance.claim h
  cases p with
  | close site e =>
    cases site with
    | claimed i x =>
      cases e with
      | none => exact Or.inr (by cases hclaim; rfl)
      | some e => cases hclaim
    | _ => exact Or.inl hclaim
  | _ => exact Or.inl hclaim

/-- A call that secures the job leaves it in the worker's hands. -/
theorem attends_secured (hf : Fenced σ) (ho : opened p (σ.writesOf (.worker w)))
    (hh : Holds σ.db (stance p)) (hv : view p = .calls c k)
    (he : exec σ (.worker w) o c out = some (r,σ')) (hok : Secures σ.db out p)
    (hrow : σ'.db.jobs.get j = some row) (hst : row.status = .started)
    (h : Attends (.handling m p) j row) : Attends (.handling m (k r)) j row := by
  rcases claimAt_of_attends h with hc | rfl
  · have hrel : Releases σ.db out p := by
      cases p with
      | commit site => cases site <;> first | exact hok | trivial
      | close site e => trivial
      | _ => exact hok
    have hloose : ¬ loose p := by
      rcases h with h | h
      · exact not_loose_running h
      · exact not_loose_unsure h
    exact attends_of_standing
      (standing_call hf ho hh hc (fun hl => absurd hl hloose) hv he hrel) (not_freed hrow hst)
  · cases hv
    obtain rfl : out = .ok := hok
    cases he
    exact Or.inl rfl

theorem not_attends_of_falling {job : Uuid} {started : JobRow} (h : falling job started p) :
    ¬ Attends (.handling m p) j row := by
  have hafter : ∀ {e : Exc}, e ≠ .jobStateConflict → afterFailure job started e ≠ .running j row ∧
      afterFailure job started e ≠ .unsure j row := by
    intro e he
    rw [afterFailure_of_ne he]
    exact ⟨nofun,nofun⟩
  rintro (ha | ha)
  · cases p with
    | rollback site e => rcases h.1 with rfl | rfl <;> exact (hafter h.2).1 ha
    | close site e =>
      cases e with
      | none => cases h
      | some e => rcases h.1 with rfl | rfl <;> exact (hafter h.2).1 ha
    | raised d e => cases ha
    | _ => cases h
  · cases p with
    | rollback site e => rcases h.1 with rfl | rfl <;> exact (hafter h.2).2 ha
    | close site e =>
      cases e with
      | none => cases h
      | some e => rcases h.1 with rfl | rfl <;> exact (hafter h.2).2 ha
    | raised d e => cases ha
    | _ => cases h

end Calls

section Steps
variable {threshold : ℕ} {s s' : State} {l : Label} {j : Uuid} {row : JobRow}

theorem attended_kept (h : Attended s) (hs : Sound s) (hok : Keeps s l)
    (hm : Move threshold s l s') : Attended s' := by
  intro j row hrow hst
  cases l with
  | call w o out =>
    cases hm with
    | @call _ m p c k _ _ r σ hw hv he =>
      have hrow : σ.db.jobs.get j = some row := hrow
      have hsec := hok m p hw
      have hop := hs.opened.workers w
      have hh := hs.engaged.holds w
      rw [hw] at hop hh
      have hhand : s.world.db.jobs.get j = some row →
          ∃ v, Attends ((s.setWorker w (.handling m (k r))).workers v) j row := by
        intro hold
        obtain ⟨v,ha⟩ := h j row hold hst
        refine ⟨v,?_⟩
        by_cases hvw : v = w
        · subst hvw
          rw [hw] at ha
          simpa [State.setWorker] using
            attends_secured hs.guarded.fenced hop hh hv he hsec hrow hst ha
        · simpa [State.setWorker, hvw] using ha
      by_cases hc : c = .commit
      · subst hc
        obtain ⟨site,rfl⟩ := phase_at_commit hv
        obtain ⟨htook,rfl⟩ | ⟨-,rfl,-⟩ := exec_commit he
        · rcases started_after_commit hs hw hrow hst with rfl | ⟨hold,-⟩
          · cases hv
            cases out with
            | ok =>
              cases he
              exact ⟨w,Or.inl (by simp [State.setWorker, stanceOf, stance])⟩
            | raises f => cases htook
            | raisesAfter f => exact absurd rfl (hsec f)
          · exact hhand hold
        · exact hhand hrow
      · rw [(exec_effect he).db hc] at hrow
        exact hhand hrow
  | serve q o out =>
    cases hm with
    | @serve _ x c k _ _ r σ hq hv he =>
      have hrow : σ.db.jobs.get j = some row := hrow
      by_cases hc : c = .commit
      · subst hc
        obtain ⟨-,rfl⟩ | ⟨-,rfl,-⟩ := exec_commit he
        · exact h j row (started_after_serve hs hq hv hrow hst) hst
        · exact h j row hrow hst
      · rw [(exec_effect he).db hc] at hrow
        exact h j row hrow hst
  | die w =>
    rw [(move_idle hm (by simp) (by simp)).db] at hrow
    obtain ⟨v,ha⟩ := h j row hrow hst
    refine ⟨v,?_⟩
    have hvw : workerAt (.die w) ≠ some v := by
      intro hat
      obtain rfl := Option.some.inj hat
      exact hok j row hrow ha
    rw [(frame_worker hm hvw).1]
    exact ha
  | _ =>
    rw [(move_idle hm (by simp) (by simp)).db] at hrow
    obtain ⟨v,ha⟩ := h j row hrow hst
    exact ⟨v,attends_kept hm (by simp) (by simp) ha⟩

/-- When the worker of a started job has lost it, nobody has it. -/
theorem not_attended (hs : Sound s) {w : ℕ} (hclaim : (stanceOf (s.workers w)).claim = some (j,row))
    (hrow : s'.world.db.jobs.get j = some row) (hst : row.status = .started)
    (hsame : ∀ v, v ≠ w → s'.workers v = s.workers v) (hlost : ¬ Attends (s'.workers w) j row) :
    ¬ Attended s' := by
  intro h
  obtain ⟨v,ha⟩ := h j row hrow hst
  by_cases hvw : v = w
  · subst hvw
    exact hlost ha
  · rw [hsame v hvw] at ha
    have hv : (stanceOf (s.workers v)).claim = some (j,row) := by
      rcases ha with ha | ha <;> rw [ha] <;> rfl
    exact hvw (hs.engaged.single v w j row row hv hclaim rfl)

section Lost
variable {w : ℕ} {m : Message} {p : Phase} {o : Oracle} {out : Outcome} {c : Call}
  {k : Except Exc c.Resp → Phase} {r : Except Exc c.Resp} {σ : World} {started : JobRow}

/-- A failure handler that is refused its release drops the job. -/
theorem refused_lost (hs : Sound s) (hw : s.workers w = .handling m p)
    (hc : claimAt p = some (j,row)) (hv : view p = .calls c k)
    (he : exec s.world (.worker w) o c out = some (r,σ)) (hrel : ¬ Releases s.world.db out p)
    (hself : s'.workers w = .handling m (k r))
    (hsame : ∀ v, v ≠ w → s'.workers v = s.workers v) (hdb : s'.world.db = σ.db) :
    ¬ Attended s' := by
  have hh := hs.engaged.holds w
  rw [hw] at hh
  obtain ⟨hfall,hcur,hst,hkept⟩ := falling_of_refused hh hc hv he hrel
  have hclaim : (stanceOf (s.workers w)).claim = some (j,row) := by
    rw [hw]
    cases p with
    | close site e => cases site <;> first | exact hc | cases hc
    | _ => exact hc
  have hrow : s'.world.db.jobs.get j = some row := by
    rw [hdb, hkept]
    exact hcur
  refine not_attended hs hclaim hrow hst hsame fun ha => ?_
  rw [hself] at ha
  exact not_attends_of_falling hfall ha

/-- A claim whose commit took effect and was reported as failed: the worker
goes on to the failure path of an unclaimed message. -/
theorem claim_lost {f : Fault} (hs : Sound s)
    (hw : s.workers w = .handling m (.commit (.claimed j started)))
    (hv : view (.commit (.claimed j started)) = .calls c k)
    (he : exec s.world (.worker w) o c (.raisesAfter f) = some (r,σ))
    (hself : s'.workers w = .handling m (k r))
    (hsame : ∀ v, v ≠ w → s'.workers v = s.workers v) (hdb : s'.world.db = σ.db) :
    ¬ Attended s' := by
  have hop := hs.opened.workers w
  rw [hw] at hop
  obtain ⟨old,hws,now,again,rfl,-,rfl⟩ := hop
  obtain ⟨hget,-,hnew⟩ := commit_jobs_updated hs.guarded.fenced
    (by rw [hws]; exact List.mem_singleton_self _)
  cases hv
  cases he
  intro h
  obtain ⟨v,ha⟩ := h old.id _ (by rw [hdb]; exact hnew) (by simp)
  by_cases hvw : v = w
  · subst hvw
    rw [hself] at ha
    rcases ha with ha | ha <;> cases ha
  · rw [hsame v hvw] at ha
    -- the row is newer than every copy a worker has
    have hclaim : (stanceOf (s.workers v)).claim =
        some (old.id,updated .started none now again old) := by
      rcases ha with ha | ha <;> rw [ha] <;> rfl
    obtain ⟨x,hcopy⟩ := (hs.engaged.holds v).copy hclaim
    obtain rfl := Option.some.inj (hcopy.stored.symm.trans hget)
    have := hcopy.attempts
    simp at this

/-- A session that fails to close after the claim takes the job from its worker. -/
theorem close_lost (hs : Sound s)
    (hw : s.workers w = .handling m (.close (.claimed j started) none))
    (hv : view (.close (.claimed j started) none) = .calls c k)
    (he : exec s.world (.worker w) o c out = some (r,σ)) (hout : out ≠ .ok)
    (hself : s'.workers w = .handling m (k r))
    (hsame : ∀ v, v ≠ w → s'.workers v = s.workers v) (hdb : s'.world.db = σ.db) :
    ¬ Attended s' := by
  have hh := hs.engaged.holds w
  rw [hw] at hh
  obtain ⟨⟨x,hcopy⟩,hcur⟩ := hh
  cases hv
  cases out with
  | ok => exact absurd rfl hout
  | raisesAfter f => simp [exec, Call.external] at he
  | raises f =>
    cases he
    refine not_attended hs (by rw [hw]; rfl) (by rw [hdb]; exact hcur) hcopy.status hsame
      fun ha => ?_
    rw [hself] at ha
    rcases ha with ha | ha <;> cases ha

end Lost

theorem attended_lost (hs : Sound s) (hno : ¬ Keeps s l) (hm : Move threshold s l s') :
    ¬ Attended s' := by
  cases l with
  | call w o out =>
    simp only [Keeps, Classical.not_imp, not_forall] at hno
    obtain ⟨m,p,hw,hsec⟩ := hno
    cases hm with
    | @call _ m' p' c k _ _ r σ hw' hv he =>
      obtain ⟨rfl,rfl⟩ := Worker.handling.inj (hw.symm.trans hw')
      have hsame : ∀ v, v ≠ w →
          (s.setWorker w (.handling m (k r))).workers v = s.workers v := by
        intro v hvw
        simp [State.setWorker, hvw]
      have hself : (s.setWorker w (.handling m (k r))).workers w = .handling m (k r) := by
        simp [State.setWorker]
      cases p with
      | requeue job started e => exact refused_lost hs hw rfl hv he hsec hself hsame rfl
      | fail job started e => exact refused_lost hs hw rfl hv he hsec hself hsame rfl
      | commit site =>
        cases site with
        | requeued job started => exact refused_lost hs hw rfl hv he hsec hself hsame rfl
        | failed job started => exact refused_lost hs hw rfl hv he hsec hself hsame rfl
        | claimed job started =>
          obtain ⟨f,hf⟩ := not_forall.mp hsec
          obtain rfl := not_not.mp hf
          exact claim_lost hs hw hv he hself hsame rfl
        | _ => exact absurd trivial hsec
      | close site e =>
        cases site with
        | claimed job started =>
          cases e with
          | none => exact close_lost hs hw hv he hsec hself hsame rfl
          | some e => exact absurd trivial hsec
        | _ => exact absurd trivial hsec
      | _ => exact absurd trivial hsec
  | die w =>
    simp only [Keeps, not_forall, not_not] at hno
    obtain ⟨j,row,hrow,ha⟩ := hno
    have hclaim : (stanceOf (s.workers w)).claim = some (j,row) := by
      rcases ha with ha | ha <;> rw [ha] <;> rfl
    obtain ⟨x,hcopy⟩ := (hs.engaged.holds w).copy hclaim
    refine not_attended hs hclaim ?_ hcopy.status (fun v hvw => ?_) ?_
    · rw [(move_idle hm (by simp) (by simp)).db]
      exact hrow
    · refine (frame_worker hm (fun hat => hvw ?_)).1
      exact (Option.some.inj hat).symm
    · cases hm
      intro ha
      rw [show (s.endWorker w).workers w = .dead by simp [State.endWorker, State.setWorker]] at ha
      rcases ha with ha | ha <;> cases ha
  | _ => exact absurd trivial hno

/-- In a run, every started job is in the hands of a live worker at all times
exactly when no step of the run is one of those that take a started job from
its worker. -/
theorem attended_iff {t : List (State × Label)} (ht : Trail (step threshold) init t s) :
    (∀ x ∈ Visited t s, Attended x) ↔ Allowed Keeps t :=
  Trail.always_iff (fun s hr => sound_of_reachable hr)
    (fun _ _ hrow => by cases hrow)
    (fun _ _ _ hs _ h hok hstep => attended_kept h hs hok (step_move hstep))
    (fun _ _ _ hs _ _ hno hstep => attended_lost hs hno (step_move hstep)) ht

end Steps

def harmless : Label → Bool
  | .call _ _ out => out = .ok
  | .die _ => false
  | _ => true

theorem keeps_of_harmless {s : State} {l : Label} (h : harmless l = true) : Keeps s l := by
  cases l with
  | call w o out =>
    obtain rfl : out = .ok := by simpa [harmless] using h
    exact fun _ p _ => secures_ok _ p
  | die w => cases h
  | _ => trivial

theorem attended_iff_sample :
    (after claimRun).world.db.jobs.rows.map JobRow.status = [.started] ∧
      ∀ x ∈ Visited (path (step 100) init claimRun) (after claimRun), Attended x := by
  have hrun : (run (step 100) init claimRun).isSome = true ∧
      (after claimRun).world.db.jobs.rows.map JobRow.status = [.started] := by
    decide +kernel
  have hok : claimRun.all harmless = true := by decide
  exact ⟨hrun.2,(attended_iff (trail_path claimRun hrun.1)).mpr fun x hx =>
    keeps_of_harmless (List.all_eq_true.mp hok _ (mem_path hx))⟩

end DocPipeline.Custody
