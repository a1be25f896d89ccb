import DocPipeline.Stances

/-!
# Claimed jobs in every reachable state

Other processes cannot invalidate what a worker knows about its job: the
locks keep their updates apart from its own, and a claim raises the attempt
count, so no two workers ever hold copies from the same claim.
-/

set_option autoImplicit false

namespace DocPipeline.Engagement
open DocPipeline.Identifiers DocPipeline.Records DocPipeline.Database DocPipeline.Calls
open DocPipeline.Consumer DocPipeline.Routes DocPipeline.System DocPipeline.Effects
open DocPipeline.Moves DocPipeline.Answers DocPipeline.Transactions DocPipeline.Pending
open DocPipeline.Reservations DocPipeline.Stances LabelledRuns EffectProgram

def Single (s : State) : Prop :=
  ∀ v w job a b, (stanceOf (s.workers v)).claim = some (job,a) →
    (stanceOf (s.workers w)).claim = some (job,b) → a.attempts = b.attempts → v = w

structure Engaged (s : State) : Prop where
  holds : ∀ w, Holds s.world.db (stanceOf (s.workers w))
  single : Single s

section Steps
variable {threshold : ℕ} {s s' : State} {l : Label}

/-- The row of a running job is updated by its own worker only. -/
theorem Engaged.owner (h : Engaged s) (ho : Opened s) (hg : Guarded s) {v w : ℕ} {m : Message}
    {site : Site} {job : Uuid} {started old new : JobRow}
    (hv : stanceOf (s.workers v) = .running job started ∨
      (stanceOf (s.workers v)).claim = some (job,started) ∧ Current s.world.db job started)
    (hst : started.status = .started) (hw : s.workers w = .handling m (.commit site))
    (hu : .updateJob old new ∈ s.world.writesOf (.worker w)) (hid : old.id = job) : v = w := by
  have hcur : Current s.world.db job started ∧
      (stanceOf (s.workers v)).claim = some (job,started) := by
    rcases hv with hv | ⟨hc,hcur⟩
    · have := h.holds v
      rw [hv] at this
      exact ⟨this.2,by rw [hv]; rfl⟩
    · exact ⟨hcur,hc⟩
  obtain ⟨hget,-⟩ := hg.fenced.isolated.ready _ _ hu
  rw [hid] at hget
  obtain rfl := Option.some.inj (hget.symm.trans hcur.1)
  have hop := ho.workers w
  rw [hw] at hop
  rcases update_at_commit hop hu with ⟨-,hq⟩ | ⟨-,b,hb⟩
  · rw [hst] at hq
    cases hq
  · have hrun : stanceOf (s.workers w) = .running old.id b := by
      rw [hw]
      exact hb
    have hholds := h.holds w
    rw [hrun] at hholds
    have hb' := hholds.2
    rw [hid] at hb'
    obtain rfl := Option.some.inj (hget.symm.trans hb')
    exact h.single v w job old old hcur.2 (by rw [hrun, ← hid]; rfl) rfl

theorem Engaged.keeps_current (h : Engaged s) (ho : Opened s) (hg : Guarded s) {v w : ℕ}
    {m : Message} {site : Site} {job : Uuid} {started : JobRow}
    (hc : (stanceOf (s.workers v)).claim = some (job,started))
    (hcur : Current s.world.db job started) (hw : s.workers w = .handling m (.commit site))
    (hvw : v ≠ w) : Current (s.world.commit (.worker w)).db job started := by
  have hiso := hg.fenced.isolated
  obtain ⟨row,hcopy⟩ := (h.holds v).copy hc
  refine jobs_kept (hiso.own _) (hiso.ready _) hcur (fun old new hu hid => hvw ?_)
  exact h.owner ho hg (Or.inr ⟨hc,hcur⟩) hcopy.status hw hu hid

theorem Engaged.holds_commit (h : Engaged s) (hg : Guarded s) {v : ℕ} {q : Proc}
    (hcur : ∀ job started, (stanceOf (s.workers v)).claim = some (job,started) →
      Current s.world.db job started → Current (s.world.commit q).db job started) :
    Holds (s.world.commit q).db (stanceOf (s.workers v)) := by
  have hv := h.holds v
  cases hx : stanceOf (s.workers v) with
  | away => trivial
  | running job started =>
    rw [hx] at hv
    exact ⟨Copy.commit hg.fenced hv.1,hcur job started (by rw [hx]; rfl) hv.2⟩
  | unsure job started =>
    rw [hx] at hv
    refine ⟨Copy.commit hg.fenced hv.1,?_⟩
    rcases hv.2 with hc | hf
    · exact Or.inl (hcur job started (by rw [hx]; rfl) hc)
    · exact Or.inr (hf.commit hg.fenced)
  | done job started =>
    rw [hx] at hv
    exact ⟨Copy.commit hg.fenced hv.1,hv.2.commit hg.fenced⟩
  | after job started =>
    rw [hx] at hv
    exact Copy.commit hg.fenced hv

theorem Engaged.init : Engaged init := ⟨fun _ => trivial,fun _ _ _ _ _ h => by cases h⟩

theorem stance_start (body : Body) : stance (start body) = .away := by
  unfold start
  split <;> rfl

theorem stanceOf_fresh {x : Worker} (h : fresh x) : stanceOf x = .away := by
  cases x with
  | handling m p =>
    obtain rfl : p = start m.body := h
    exact stance_start m.body
  | _ => rfl

theorem stanceOf_idle (hi : Idle s s') (w : ℕ) :
    stanceOf (s'.workers w) = stanceOf (s.workers w) ∨ stanceOf (s'.workers w) = .away := by
  rcases hi.workers w with he | hf
  · exact Or.inl (by rw [he])
  · exact Or.inr (stanceOf_fresh hf)

structure Claiming (s : State) (l : Label) (s' : State) (v : ℕ) (job : Uuid) (started : JobRow) :
    Prop where
  label : ∃ o out, l = .call v o out
  before : ∃ m, s.workers v = .handling m (.commit (.claimed job started))
  db : s'.world.db = (s.world.commit (.worker v)).db
  history : s'.world.history = (s.world.commit (.worker v)).history

/-- A worker keeps its claim, loses it, or has just committed it. -/
theorem claim_step (hm : Move threshold s l s') {v : ℕ} {job : Uuid} {started : JobRow}
    (hx : (stanceOf (s'.workers v)).claim = some (job,started)) :
    (stanceOf (s.workers v)).claim = some (job,started) ∨ Claiming s l s' v job started := by
  have hidle : Idle s s' → (stanceOf (s.workers v)).claim = some (job,started) ∨
      Claiming s l s' v job started := by
    intro hi
    rcases stanceOf_idle hi v with he | he
    · exact Or.inl (by rwa [he] at hx)
    · rw [he] at hx
      cases hx
  cases l with
  | call w o out =>
    cases hm with
    | @call w m p c k o out r σ hw hv he =>
      by_cases hvw : v = w
      · subst hvw
        simp only [State.setWorker, Function.update_self] at hx
        rw [hw]
        rcases claim_call hv r hx with hx | ⟨rfl,hk⟩
        · exact Or.inl hx
        · refine Or.inr ?_
          cases hv
          cases r with
          | error e => cases hk
          | ok _ =>
            obtain ⟨-,rfl⟩ | ⟨-,-,e,he⟩ := exec_commit he
            · refine ⟨⟨o,out,rfl⟩,⟨m,hw⟩,rfl,?_⟩
              simp [World.record, entered, performed]
            · cases he
      · simp only [State.setWorker, Function.update_of_ne hvw] at hx
        exact Or.inl hx
  | serve r o out =>
    cases hm with
    | serve hq hv he => exact Or.inl hx
  | _ => exact hidle (move_idle hm (by simp) (by simp))

/-- A new claim begins a new attempt. -/
theorem Claiming.later {v w : ℕ} {job : Uuid} {a b : JobRow} (hc : Claiming s l s' w job b)
    (h : Engaged s) (ho : Opened s) (hg : Guarded s)
    (hv : (stanceOf (s.workers v)).claim = some (job,a)) : a.attempts < b.attempts := by
  obtain ⟨row,hcopy⟩ := (h.holds v).copy hv
  obtain ⟨m,hw⟩ := hc.before
  have hop := ho.workers w
  rw [hw] at hop
  obtain ⟨old,hws,now,again,rfl,-,rfl⟩ := hop
  have hu : Write.updateJob old (updated .started none now again old) ∈
      s.world.writesOf (.worker w) := by simp [hws, -mem_writesOf]
  obtain ⟨hget,-⟩ := commit_jobs_updated hg.fenced hu
  obtain rfl := Option.some.inj (hget.symm.trans hcopy.stored)
  have := hcopy.attempts
  simp only [updated_attempts, if_true]
  omega

theorem Single.step (h : Engaged s) (ho : Opened s) (hg : Guarded s)
    (hm : Move threshold s l s') : Single s' := by
  intro v w job a b hv hw hab
  rcases claim_step hm hv with ha | hca <;> rcases claim_step hm hw with hb | hcb
  · exact h.single v w job a b ha hb hab
  · have := hcb.later h ho hg ha
    omega
  · have := hca.later h ho hg hb
    omega
  · obtain ⟨o,out,rfl⟩ := hca.label
    obtain ⟨o',out',he⟩ := hcb.label
    exact (Label.call.inj he).1

theorem holds_idle (h : Engaged s) (hi : Idle s s') (w : ℕ) :
    Holds s'.world.db (stanceOf (s'.workers w)) := by
  rw [hi.db]
  rcases stanceOf_idle hi w with he | he
  · rw [he]
    exact h.holds w
  · rw [he]
    trivial

theorem holds_serve (h : Engaged s) (ho : Opened s) (hg : Guarded s) {q : ℕ} {o : Oracle}
    {out : Outcome} (hm : Move threshold s (.serve q o out) s') (v : ℕ) :
    Holds s'.world.db (stanceOf (s'.workers v)) := by
  cases hm with
  | @serve q x c k o out r σ hq hv he =>
    by_cases hc : c = .commit
    · subst hc
      have hop := ho.requests q
      rw [hq] at hop
      have hiso := hg.fenced.isolated
      obtain ⟨-,rfl⟩ | ⟨-,rfl,-⟩ := exec_commit he
      · refine h.holds_commit hg (fun job started _ hcur => ?_)
        refine jobs_kept (hiso.own _) (hiso.ready _) hcur (fun old new hu => ?_)
        rcases stage_at_commit hv hop with hws | ⟨_,-,hws⟩ | ⟨_,_,_,-,hws,-⟩ <;>
          simp [hws, -mem_writesOf] at hu
      · exact h.holds v
    · have hdb : σ.db = s.world.db := (exec_effect he).db hc
      change Holds σ.db _
      rw [hdb]
      exact h.holds v

theorem holds_callStep (h : Engaged s) (ho : Opened s) (hg : Guarded s) {w : ℕ} {o : Oracle}
    {out : Outcome} (hm : Move threshold s (.call w o out) s') (v : ℕ) :
    Holds s'.world.db (stanceOf (s'.workers v)) := by
  cases hm with
  | @call w m p c k o out r σ hw hv he =>
    have hop := ho.workers w
    have hself := h.holds w
    rw [hw] at hop hself
    revert v
    refine (Function.forall_update_iff s.workers (fun _ y => Holds σ.db (stanceOf y))).mpr
      ⟨holds_call hg.fenced hop hself hv he,fun v hvw => ?_⟩
    by_cases hc : c = .commit
    · subst hc
      obtain ⟨site,rfl⟩ := phase_at_commit hv
      obtain ⟨-,rfl⟩ | ⟨-,rfl,-⟩ := exec_commit he
      · exact h.holds_commit hg
          (fun job started hc hcur => h.keeps_current ho hg hc hcur hw hvw)
      · exact h.holds v
    · rw [(exec_effect he).db hc]
      exact h.holds v

/-- In every reachable state every worker can rely on what its waiting point
says about the job it has claimed. -/
theorem engaged_of_reachable (h : Reachable (step threshold) init s) : Engaged s := by
  refine h.invariant Engaged.init (fun s l s' hr hs hstep => ?_)
  have hm := step_move hstep
  have ho := opened_of_reachable hr
  have hg := guarded_of_reachable hr
  refine ⟨fun v => ?_,Single.step hs ho hg hm⟩
  cases l with
  | call w o out => exact holds_callStep hs ho hg hm v
  | serve r o out => exact holds_serve hs ho hg hm v
  | _ => exact holds_idle hs (move_idle hm (by simp) (by simp)) v

end Steps

end DocPipeline.Engagement
