import DocPipeline.Effects

/-!
# Everything a step can do

`Move` has one constructor for each kind of step, guards included. Proofs
about steps are case analyses of `Move`; none of them unfolds `step`.
-/

set_option autoImplicit false

namespace DocPipeline.Moves
open DocPipeline.Identifiers DocPipeline.Records DocPipeline.Database DocPipeline.Calls
open DocPipeline.Consumer DocPipeline.Routes DocPipeline.System DocPipeline.Effects EffectProgram
open LabelledRuns

inductive Move (threshold : ℕ) (s : State) : Label → State → Prop
  | deliver {w i : ℕ} {m : Message} (hw : s.workers w = .idle)
      (hu : s.world.unsettled w = none) (hm : s.world.ready[i]? = some m) :
      Move threshold s (.deliver w i) { s.setWorker w (.received m) with
        world := { s.world with
          ready := s.world.ready.eraseIdx i
          unsettled := Function.update s.world.unsettled w (some m) } }
  | begin {w : ℕ} {m : Message} (hw : s.workers w = .received m) :
      Move threshold s (.begin w) (s.setWorker w (.handling m (start m.body)))
  | call {w : ℕ} {m : Message} {p : Phase} {c : Call} {k : Except Exc c.Resp → Phase}
      {o : Oracle} {out : Outcome} {r : Except Exc c.Resp} {σ : World}
      (hw : s.workers w = .handling m p)
      (hv : view p = .calls c k) (he : exec s.world (.worker w) o c out = some (r,σ)) :
      Move threshold s (.call w o out) { s.setWorker w (.handling m (k r)) with
        world := World.record σ (entered (k r) ++ if Outcome.took out then performed p else []) }
  | loop {w : ℕ} {m : Message} (hw : s.workers w = .handling m .returned) :
      Move threshold s (.loop w) (s.setWorker w .idle)
  | stop {w : ℕ} (hw : s.workers w = .idle ∨ ∃ m, s.workers w = .received m) :
      Move threshold s (.stop w) (s.endWorker w)
  | die {w : ℕ} (hw : s.workers w ≠ .dead) : Move threshold s (.die w) (s.endWorker w)
  | lose {w : ℕ} {m : Message} (hw : s.workers w ≠ .dead)
      (hu : s.world.unsettled w = some m) :
      Move threshold s (.lose w) { s with world := s.world.requeue (.worker w) }
  | duplicate {i : ℕ} {m : Message} (hm : s.world.ready[i]? = some m) :
      Move threshold s (.duplicate i)
        { s with world := { s.world with ready := m::s.world.ready } }
  | inject (body : Body) : Move threshold s (.inject body)
      { s with world := { s.world with ready := ⟨body,.outside⟩::s.world.ready } }
  | arrive {r : ℕ} (account : AccountId) (route : Route) (hr : s.requests r = none) :
      Move threshold s (.arrive r account route)
        (s.setStage r account (startStage account route))
  | serve {q : ℕ} {x : Request} {c : Call} {k : Except Exc c.Resp → Stage} {o : Oracle}
      {out : Outcome} {r : Except Exc c.Resp} {σ : World} (hq : s.requests q = some x)
      (hv : viewStage threshold x.stage = .calls c k)
      (he : exec s.world (.request q) o c out = some (r,σ)) :
      Move threshold s (.serve q o out) { s.setStage q x.account (k r) with
        world := World.record σ (if Outcome.took out then performedStage x.stage else []) }
  | abort {q : ℕ} {x : Request} (hq : s.requests q = some x) :
      Move threshold s (.abort q) { s.setStage q x.account (.crashed (.other "aborted")) with
        world := s.world.discard (.request q) }
  | receive {q : ℕ} {x : Request} {response : Response} (hq : s.requests q = some x)
      (hw : s.world.wire q = some response) :
      Move threshold s (.receive q) { s with world := { s.world with
        wire := Function.update s.world.wire q none
        history := .received x.account response::s.world.history } }
  | upload {account : AccountId} {key : String} (content : Bytes)
      (hu : handed s.world.history account (.put key) = true) :
      Move threshold s (.upload account key content) { s with world := { s.world with
        objects := Function.update s.world.objects key (some content) } }

variable {threshold : ℕ} {s s' : State} {l : Label}

theorem callStep_move {w : ℕ} {o : Oracle} {out : Outcome} (h : callStep s w o out = some s') :
    Move threshold s (.call w o out) s' := by
  unfold callStep at h
  split at h
  · rename_i m p hw
    split at h
    · rename_i c k hv
      obtain ⟨⟨r,σ⟩,he,rfl⟩ := Option.map_eq_some_iff.mp h
      exact .call hw hv he
    · cases h
  · cases h

theorem serveStep_move {q : ℕ} {o : Oracle} {out : Outcome}
    (h : serveStep threshold s q o out = some s') : Move threshold s (.serve q o out) s' := by
  unfold serveStep at h
  split at h
  · rename_i x hq
    split at h
    · rename_i c k hv
      obtain ⟨⟨r,σ⟩,he,rfl⟩ := Option.map_eq_some_iff.mp h
      exact .serve hq hv he
    · cases h
  · cases h

theorem step_move (h : step threshold s l = some s') : Move threshold s l s' := by
  cases l with
  | call w o out => exact callStep_move h
  | serve q o out => exact serveStep_move h
  | deliver w i =>
    simp only [step] at h
    split at h
    · rename_i hw hu hm
      cases h
      exact .deliver hw hu hm
    · cases h
  | begin w =>
    simp only [step] at h
    split at h
    · rename_i hw
      cases h
      exact .begin hw
    · cases h
  | loop w =>
    simp only [step] at h
    split at h
    · rename_i hw
      cases h
      exact .loop hw
    · cases h
  | stop w =>
    simp only [step] at h
    split at h
    · rename_i hw
      cases h
      exact .stop (Or.inl hw)
    · rename_i m hw
      cases h
      exact .stop (Or.inr ⟨m,hw⟩)
    · cases h
  | die w =>
    simp only [step] at h
    split at h
    · cases h
    · rename_i hw
      cases h
      exact .die hw
  | lose w =>
    simp only [step] at h
    split at h
    · cases h
    · rename_i hu hw
      cases h
      exact .lose hw hu
    · cases h
  | duplicate i =>
    simp only [step] at h
    split at h
    · rename_i hm
      cases h
      exact .duplicate hm
    · cases h
  | inject body =>
    cases h
    exact .inject body
  | arrive r account route =>
    simp only [step] at h
    split at h
    · rename_i hr
      cases h
      exact .arrive account route hr
    · cases h
  | abort q =>
    simp only [step] at h
    split at h
    · rename_i hq
      cases h
      exact .abort hq
    · cases h
  | receive q =>
    simp only [step] at h
    split at h
    · rename_i hq hw
      cases h
      exact .receive hq hw
    · cases h
  | upload account key content =>
    simp only [step] at h
    split at h
    · rename_i hu
      cases h
      exact .upload content hu
    · cases h

def fresh : Worker → Prop
  | .handling m p => p = start m.body
  | _ => True

def freshRequest (q : Request) : Prop :=
  q.stage = .crashed (.other "aborted") ∨ ∃ route, q.stage = startStage q.account route

structure Idle (s s' : State) : Prop where
  db : s'.world.db = s.world.db
  minted : s'.world.minted = s.world.minted
  writes : ∀ q, s'.world.writesOf q = s.world.writesOf q ∨ s'.world.writesOf q = []
  history : ∃ es, s'.world.history = es ++ s.world.history ∧ ∀ e ∈ es, ∃ a x, e = .received a x
  workers : ∀ w, s'.workers w = s.workers w ∨ fresh (s'.workers w)
  requests : ∀ r, s'.requests r = s.requests r ∨ ∃ q, s'.requests r = some q ∧ freshRequest q

theorem writesOf_discard_cases (σ : World) (p q : Proc) :
    (σ.discard p).writesOf q = σ.writesOf q ∨ (σ.discard p).writesOf q = [] := by
  rw [writesOf_discard]
  split
  · exact Or.inr rfl
  · exact Or.inl rfl

theorem setWorker_workers {w : ℕ} {x : Worker} (hx : fresh x) (v : ℕ) :
    (s.setWorker w x).workers v = s.workers v ∨ fresh ((s.setWorker w x).workers v) := by
  by_cases hv : v = w
  · subst hv
    refine Or.inr ?_
    simpa [State.setWorker] using hx
  · exact Or.inl (by simp [State.setWorker, hv])

theorem setStage_self (s : State) (r : ℕ) (account : AccountId) (x : Stage) :
    (s.setStage r account x).requests r = some ⟨account,x⟩ := Function.update_self _ _ _

theorem setStage_requests {r : ℕ} {account : AccountId} {x : Stage}
    (hx : freshRequest ⟨account,x⟩) (v : ℕ) :
    (s.setStage r account x).requests v = s.requests v ∨
      ∃ q, (s.setStage r account x).requests v = some q ∧ freshRequest q := by
  by_cases hv : v = r
  · subst hv
    exact Or.inr ⟨_,by simp [State.setStage],hx⟩
  · exact Or.inl (by simp [State.setStage, hv])

/-- The end of a worker drops its transaction and no other. -/
theorem endWorker_writesOf (s : State) (w : ℕ) (q : Proc) :
    (s.endWorker w).world.writesOf q = (s.world.discard (.worker w)).writesOf q :=
  writesOf_congr (requeue_inflight _ _) q

theorem idle_endWorker (w : ℕ) : Idle s (s.endWorker w) where
  db := requeue_db _ _
  minted := requeue_minted _ _
  writes q := by
    rw [endWorker_writesOf]
    exact writesOf_discard_cases _ _ _
  history := ⟨[],requeue_history _ _,by simp⟩
  workers := setWorker_workers trivial
  requests _ := Or.inl rfl

theorem move_idle (hm : Move threshold s l s') (hc : ∀ w o out, l ≠ .call w o out)
    (hs : ∀ r o out, l ≠ .serve r o out) : Idle s s' := by
  cases hm with
  | call => exact absurd rfl (hc _ _ _)
  | serve => exact absurd rfl (hs _ _ _)
  | stop => exact idle_endWorker _
  | die => exact idle_endWorker _
  | lose hw hu =>
    exact ⟨requeue_db _ _,requeue_minted _ _,
      fun q => Or.inl (writesOf_congr (requeue_inflight _ _) q),
      ⟨[],requeue_history _ _,by simp⟩,fun _ => Or.inl rfl,fun _ => Or.inl rfl⟩
  | deliver hw hu hi =>
    exact ⟨rfl,rfl,fun _ => Or.inl rfl,⟨[],rfl,by simp⟩,setWorker_workers trivial,
      fun _ => Or.inl rfl⟩
  | begin hw =>
    exact ⟨rfl,rfl,fun _ => Or.inl rfl,⟨[],rfl,by simp⟩,setWorker_workers rfl,
      fun _ => Or.inl rfl⟩
  | loop hw =>
    exact ⟨rfl,rfl,fun _ => Or.inl rfl,⟨[],rfl,by simp⟩,setWorker_workers trivial,
      fun _ => Or.inl rfl⟩
  | arrive account route hr =>
    exact ⟨rfl,rfl,fun _ => Or.inl rfl,⟨[],rfl,by simp⟩,fun _ => Or.inl rfl,
      setStage_requests (Or.inr ⟨route,rfl⟩)⟩
  | abort hq =>
    exact ⟨rfl,rfl,writesOf_discard_cases _ _,⟨[],rfl,by simp⟩,fun _ => Or.inl rfl,
      setStage_requests (Or.inl rfl)⟩
  | @receive q x response hq hw =>
    exact ⟨rfl,rfl,fun _ => Or.inl rfl,⟨[.received x.account response],rfl,by simp⟩,
      fun _ => Or.inl rfl,fun _ => Or.inl rfl⟩
  | _ =>
    exact ⟨rfl,rfl,fun _ => Or.inl rfl,⟨[],rfl,by simp⟩,fun _ => Or.inl rfl,fun _ => Or.inl rfl⟩

def workerAt : Label → Option ℕ
  | .deliver w _ | .begin w | .call w _ _ | .loop w | .stop w | .die w | .lose w => some w
  | _ => none

def requestAt : Label → Option ℕ
  | .arrive r _ _ | .serve r _ _ | .abort r => some r
  | _ => none

theorem requeue_unsettled_other (σ : World) {v w : ℕ} (h : v ≠ w) :
    (σ.requeue (.worker w)).unsettled v = σ.unsettled v := by
  unfold World.requeue
  dsimp only
  split
  · simp [h]
  · rfl

/-- A step leaves the other workers and their messages alone. -/
theorem frame_worker (hm : Move threshold s l s') {v : ℕ} (hv : workerAt l ≠ some v) :
    s'.workers v = s.workers v ∧ s'.world.unsettled v = s.world.unsettled v := by
  have hne : ∀ {w : ℕ}, workerAt l = some w → v ≠ w := by
    rintro w hw rfl
    exact hv hw
  cases hm with
  | deliver hw hu hi => simp [State.setWorker, hne rfl]
  | begin hw => simp [State.setWorker, hne rfl]
  | call hw hview he =>
    refine ⟨by simp [State.setWorker, hne rfl],(exec_effect he).unsettled_other ?_⟩
    intro heq
    exact hne rfl (Proc.worker.inj heq).symm
  | loop hw => simp [State.setWorker, hne rfl]
  | stop hw =>
    exact ⟨by simp [State.endWorker, State.setWorker, hne rfl],requeue_unsettled_other _ (hne rfl)⟩
  | die hw =>
    exact ⟨by simp [State.endWorker, State.setWorker, hne rfl],requeue_unsettled_other _ (hne rfl)⟩
  | lose hw hu => exact ⟨rfl,requeue_unsettled_other _ (hne rfl)⟩
  | serve hq hview he => exact ⟨rfl,(exec_effect he).unsettled_other (by simp)⟩
  | _ => exact ⟨rfl,rfl⟩

theorem frame_request (hm : Move threshold s l s') {q : ℕ} (hq : requestAt l ≠ some q) :
    s'.requests q = s.requests q := by
  have hne : ∀ {r : ℕ}, requestAt l = some r → q ≠ r := by
    rintro r hr rfl
    exact hq hr
  cases hm with
  | arrive account route hr => simp [State.setStage, hne rfl]
  | serve hx hv he => simp [State.setStage, hne rfl]
  | abort hx => simp [State.setStage, hne rfl]
  | _ => rfl

theorem untouched_worker {t : List (State × Label)}
    (ht : Trail (step threshold) init t s) {w : ℕ} (hl : ∀ x ∈ t, workerAt x.2 ≠ some w) :
    s.workers w = .idle ∧ s.world.unsettled w = none := by
  have h := ht.frame (fun s => (s.workers w,s.world.unsettled w)) (fun l => workerAt l = some w)
    (fun s l s' hn hs => by
      obtain ⟨hw,hu⟩ := frame_worker (step_move hs) hn
      simp only [hw, hu]) hl
  exact Prod.mk.inj h

theorem untouched_request {t : List (State × Label)}
    (ht : Trail (step threshold) init t s) {r : ℕ} (hl : ∀ x ∈ t, requestAt x.2 ≠ some r) :
    s.requests r = none :=
  ht.frame (fun s => s.requests r) (fun l => requestAt l = some r)
    (fun _ _ _ hn hs => frame_request (step_move hs) hn) hl

end DocPipeline.Moves
