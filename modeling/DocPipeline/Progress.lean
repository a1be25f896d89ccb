import DocPipeline.Backpressure
import DocPipeline.RetryLoop
import DocPipeline.Work

/-!
# Progress

A statement waits only while another transaction holds what it needs, and
there is no circle of transactions that wait for each other: as long as any
process is in the middle of its code, one of them can go on. With the bound
on the work of a run this makes every run whose services work come to an end,
and at its end the pipeline has drained.
-/

set_option autoImplicit false

namespace DocPipeline.Progress
open DocPipeline.Identifiers DocPipeline.Records DocPipeline.Database DocPipeline.Calls
open DocPipeline.Consumer DocPipeline.Routes DocPipeline.System DocPipeline.Moves
open DocPipeline.Effects DocPipeline.Answers DocPipeline.Transactions DocPipeline.Ledger
open DocPipeline.Publication DocPipeline.Exclusion DocPipeline.RetryLoop DocPipeline.Work
open LabelledRuns EffectProgram KeyedTable

/-- What another transaction must not hold when the call is made. -/
def needs : Call → Option (Write → Bool)
  | .updateStatus job _ _ _ => some (updatesJob job)
  | .createJob dto => some (usesIndexEntry dto.accountId dto.documentId)
  | .createArtifact dto => some (usesSlot (dto.documentId,dto.artifactType))
  | _ => none

inductive Awaits (threshold : ℕ) (s : State) : Proc → Call → Prop
  | worker {w : ℕ} {m : Message} {p : Phase} {c : Call} {k : Except Exc c.Resp → Phase}
      (hw : s.workers w = .handling m p) (hv : view p = .calls c k) :
      Awaits threshold s (.worker w) c
  | request {q : ℕ} {x : Request} {c : Call} {k : Except Exc c.Resp → Stage}
      (hq : s.requests q = some x) (hv : viewStage threshold x.stage = .calls c k) :
      Awaits threshold s (.request q) c

def answerLabel (o : Oracle) : Proc → Label
  | .worker w => .call w o .ok
  | .request r => .serve r o .ok

def Advances (threshold : ℕ) (s : State) (q : Proc) : Prop :=
  ∃ o s', step threshold s (answerLabel o q) = some s'

section Calls
variable {threshold : ℕ} {s : State} {p q : Proc} {c : Call}

/-- A call is answered unless it waits for another transaction. -/
theorem exec_some {σ : World} (hid : ∃ id, id ∉ σ.minted)
    (hfree : ∀ uses, needs c = some uses → σ.held p uses = false) :
    ∃ o x, exec σ p o c .ok = some x := by
  obtain ⟨id,hid⟩ := hid
  refine ⟨{ uuid := id },?_⟩
  cases c with
  | updateStatus job status expected err =>
    simp only [exec, serve, hfree _ rfl]
    cases σ.db.jobs.get job with
    | none => exact ⟨_,rfl⟩
    | some old =>
      by_cases hst : old.status = expected
      · exact ⟨_,if_pos hst⟩
      · exact ⟨_,if_neg hst⟩
  | createJob dto =>
    simp only [exec, serve, hfree _ rfl]
    by_cases hact : σ.db.activeJobExists dto.accountId dto.documentId = true
    · exact ⟨_,if_pos hact⟩
    · exact ⟨_,(if_neg hact).trans (if_neg hid)⟩
  | createArtifact dto =>
    simp only [exec, serve, hfree _ rfl]
    exact ⟨_,if_neg hid⟩
  | getObject key =>
    simp only [exec, serve]
    cases σ.objects key <;> exact ⟨_,rfl⟩
  | uuid4 => exact ⟨_,if_neg hid⟩
  | _ => exact ⟨_,rfl⟩

theorem advances_of_exec {o : Oracle} {x : Except Exc c.Resp × World}
    (ha : Awaits threshold s q c) (he : exec s.world q o c .ok = some x) :
    Advances threshold s q := by
  cases ha with
  | worker hw hv =>
    refine ⟨o,?_⟩
    simp only [answerLabel, step, callStep, hw, hv, he]
    exact ⟨_,rfl⟩
  | request hq hv =>
    refine ⟨o,?_⟩
    simp only [answerLabel, step, serveStep, hq, hv, he]
    exact ⟨_,rfl⟩

theorem advances_of_free (hid : ∃ id, id ∉ s.world.minted) (ha : Awaits threshold s q c)
    (hfree : ∀ uses, needs c = some uses → s.world.held q uses = false) :
    Advances threshold s q := by
  obtain ⟨o,x,he⟩ := exec_some hid hfree
  exact advances_of_exec ha he

theorem held_by {σ : World} {uses : Write → Bool} (h : σ.held p uses = true) :
    ∃ q w, w ∈ σ.writesOf q ∧ q ≠ p ∧ uses w = true := by
  simp only [World.held, List.any_eq_true, Bool.and_eq_true, decide_eq_true_eq] at h
  obtain ⟨⟨q,w⟩,he,hne,hu⟩ := h
  exact ⟨q,w,(mem_writesOf w).mpr he,hne,hu⟩

/-- A worker with an open transaction is not waiting, or it has written the
artifact and is about to complete its job. -/
theorem owner_worker {w : ℕ} {x : Write} (ho : Opened s) (hx : x ∈ s.world.writesOf (.worker w)) :
    ∃ c, Awaits threshold s (.worker w) c ∧
      (needs c = none ∨ (∃ a, x = .upsertArtifact a) ∧ ∃ job, needs c = some (updatesJob job)) := by
  have hop := ho.workers w
  cases hw : s.workers w with
  | handling m p =>
    rw [hw] at hop
    have hnil : ∀ {ws : List Write}, ws = [] → x ∉ ws := by
      rintro ws rfl
      exact List.not_mem_nil
    cases p with
    | commit site => exact ⟨_,.worker hw rfl,Or.inl rfl⟩
    | rollback site e => exact ⟨_,.worker hw rfl,Or.inl rfl⟩
    | processComplete job started row document markdown =>
      obtain ⟨a,ha⟩ := hop
      rw [ha] at hx
      exact ⟨_,.worker hw rfl,Or.inr ⟨⟨a,List.mem_singleton.mp hx⟩,job,rfl⟩⟩
    | _ => exact absurd hx (hnil hop)
  | _ =>
    rw [hw] at hop
    rw [show s.world.writesOf (.worker w) = [] from hop] at hx
    cases hx

theorem owner_request {r : ℕ} {x : Write} (ho : Opened s)
    (hx : x ∈ s.world.writesOf (.request r)) :
    ∃ c, Awaits threshold s (.request r) c ∧ needs c = none := by
  have hop := ho.requests r
  cases hr : s.requests r with
  | none =>
    rw [hr] at hop
    rw [show s.world.writesOf (.request r) = [] from hop] at hx
    cases hx
  | some q =>
    obtain ⟨account,stage⟩ := q
    rw [hr] at hop
    have hnil : ∀ {ws : List Write} {P : Prop}, ws = [] ∧ P → x ∉ ws := by
      rintro ws P ⟨rfl,-⟩
      exact List.not_mem_nil
    cases stage with
    | signUpload document => exact ⟨_,.request hr rfl,rfl⟩
    | commitJob job => exact ⟨_,.request hr rfl,rfl⟩
    | respond response => exact ⟨_,.request hr rfl,rfl⟩
    | commit response => exact ⟨_,.request hr rfl,rfl⟩
    | rollback sent e => exact ⟨_,.request hr rfl,rfl⟩
    | _ => first
      | exact absurd hx (hnil hop)
      | (rw [show s.world.writesOf (.request r) = [] from hop] at hx
         cases hx)

end Calls

/-- `p` can only go on when the open transaction of `q` has ended. -/
inductive WaitsFor (threshold : ℕ) (s : State) (p q : Proc) : Prop
  | intro {c : Call} {uses : Write → Bool} {x : Write} (ha : Awaits threshold s p c)
      (hn : needs c = some uses) (hne : q ≠ p) (hx : x ∈ s.world.writesOf q)
      (hu : uses x = true)

section Waiting
variable {threshold : ℕ} {s : State} {p q r : Proc} {c : Call}

theorem awaits_unique {c' : Call} (h : Awaits threshold s p c) (h' : Awaits threshold s p c') :
    c = c' := by
  cases h with
  | worker hw hv =>
    cases h' with
    | worker hw' hv' =>
      obtain ⟨-,rfl⟩ := Worker.handling.inj (hw.symm.trans hw')
      exact (Node.calls.inj (hv.symm.trans hv')).1
  | request hq hv =>
    cases h' with
    | request hq' hv' =>
      obtain rfl := Option.some.inj (hq.symm.trans hq')
      exact (Node.calls.inj (hv.symm.trans hv')).1

/-- A process in the middle of its code goes on or waits for another one. -/
theorem advances_or_waits (hid : ∃ id, id ∉ s.world.minted) (ha : Awaits threshold s p c) :
    Advances threshold s p ∨ ∃ q, WaitsFor threshold s p q := by
  by_cases hfree : ∀ uses, needs c = some uses → s.world.held p uses = false
  · exact Or.inl (advances_of_free hid ha hfree)
  obtain ⟨uses,hfree⟩ := not_forall.mp hfree
  obtain ⟨hn,hheld⟩ := Classical.not_imp.mp hfree
  obtain ⟨q,x,hx,hne,hu⟩ := held_by (by simpa using hheld)
  exact Or.inr ⟨q,.intro ha hn hne hx hu⟩

/-- Who holds up a process that is itself waiting has written an artifact, and
waits for the row of its job. -/
theorem waits_twice (ho : Opened s) (h : WaitsFor threshold s p q)
    (h' : WaitsFor threshold s q r) :
    ∃ job x, x ∈ s.world.writesOf r ∧ updatesJob job x = true := by
  obtain ⟨-,-,-,hx,-⟩ := h
  obtain ⟨ha,hn,-,hy,hu⟩ := h'
  cases q with
  | request q =>
    obtain ⟨c,ha',hc⟩ := owner_request ho hx
    rw [awaits_unique ha ha', hc] at hn
    cases hn
  | worker w =>
    obtain ⟨c,ha',hc | ⟨-,job,hc⟩⟩ := owner_worker ho hx
    · rw [awaits_unique ha ha', hc] at hn
      cases hn
    · rw [awaits_unique ha ha', hc] at hn
      obtain rfl := Option.some.inj hn
      exact ⟨job,_,hy,hu⟩

/-- A transaction that has changed a job row waits for nobody. -/
theorem not_waits (ho : Opened s) {job : Uuid} {x : Write} (hx : x ∈ s.world.writesOf q)
    (hu : updatesJob job x = true) : ¬ WaitsFor threshold s q r := by
  rintro ⟨ha,hn,-,-,-⟩
  cases q with
  | request q =>
    obtain ⟨c,ha',hc⟩ := owner_request ho hx
    rw [awaits_unique ha ha', hc] at hn
    cases hn
  | worker w =>
    obtain ⟨c,ha',hc | ⟨⟨a,rfl⟩,-⟩⟩ := owner_worker ho hx
    · rw [awaits_unique ha ha', hc] at hn
      cases hn
    · cases hu

/-- Waiting goes no further than two steps, so it never goes in a circle. -/
theorem wellFounded_waitsFor (ho : Opened s) :
    WellFounded (fun q p => WaitsFor threshold s p q) := by
  refine ⟨fun p => ⟨p,fun q hq => ⟨q,fun r hr => ⟨r,fun v hv => ?_⟩⟩⟩⟩
  obtain ⟨job,x,hx,hu⟩ := waits_twice ho hq hr
  exact absurd hv (not_waits ho hx hu)

/-- Whoever holds a row that another process waits for is in the middle of
its code. -/
theorem awaits_of_waitsFor (ho : Opened s) (h : WaitsFor threshold s p q) :
    ∃ c, Awaits threshold s q c := by
  obtain ⟨-,-,-,hx,-⟩ := h
  cases q with
  | request q => exact (owner_request ho hx).imp (fun _ h => h.1)
  | worker w => exact (owner_worker ho hx).imp (fun _ h => h.1)

/-- A process in the middle of its code can go on, or its waiting ends at one
that can. -/
theorem advances_of_awaits (ho : Opened s) (hid : ∃ id, id ∉ s.world.minted) :
    ∀ p c, Awaits threshold s p c →
      ∃ q, Relation.ReflTransGen (WaitsFor threshold s) p q ∧ Advances threshold s q := by
  have hwf : WellFounded (fun q p => WaitsFor threshold s p q) := wellFounded_waitsFor ho
  intro p
  induction p using hwf.induction with
  | _ p ih =>
    intro c ha
    obtain hgo | ⟨q,hq⟩ := advances_or_waits hid ha
    · exact ⟨p,.refl,hgo⟩
    obtain ⟨c',ha'⟩ := awaits_of_waitsFor ho hq
    obtain ⟨r,hr,hgo⟩ := ih q hq c' ha'
    exact ⟨r,.head hq hr,hgo⟩

end Waiting

def relieved : Worker → Bool
  | .idle | .dead => true
  | .handling _ .returned => true
  | .handling _ (.commit .dropping) | .handling _ (.close .dropping none) => true
  | .handling _ (.commit .claiming) | .handling _ (.close .claiming none) => true
  | _ => false

/-- The steps of the code in which the services do what they are asked. -/
def proceeds : Label → Bool
  | .deliver _ _ | .begin _ | .loop _ => true
  | .call _ _ out | .serve _ _ out => out = .ok
  | _ => false

/-- No such step is possible. -/
def Stuck (threshold : ℕ) (s : State) : Prop :=
  ∀ l, proceeds l = true → step threshold s l = none

def hasRaised : Worker → Bool
  | .handling _ (.raised _ _) => true
  | _ => false

structure Drained (s : State) : Prop where
  workers : ∀ w, resting (s.workers w) = true ∨ hasRaised (s.workers w) = true
  requests : ∀ r, answered (s.requests r) = true
  ready : (∃ w, s.workers w = .idle) → s.world.ready = []
  unsettled : ∀ w, resting (s.workers w) = true → s.world.unsettled w = none
  writes : ∀ q, s.world.writesOf q = []

section Relief
variable {threshold : ℕ} {s s' : State} {l : Label}

theorem relieved_onFailure (m : Message) (job : Uuid) (started : JobRow) (e : Exc) :
    relieved (.handling m (onFailure job started e)) = false := by
  unfold onFailure
  split <;> rfl

theorem relieved_leave {m : Message} {site : Site} {e : Option Exc}
    (h : relieved (.handling m (leave site e)) = true) :
    relieved (.handling m (.close site e)) = true := by
  cases site with
  | processed job started =>
    rcases e with _ | e
    · cases h
    · rw [leave, relieved_onFailure] at h
      cases h
  | _ =>
    rcases e with _ | e
    · exact h
    · cases e <;> cases h

/-- A message is settled by an acknowledgement or was settled before. -/
theorem relieved_call {σ σ' : World} {w : ℕ} {o : Oracle} {out : Outcome} {m : Message} {p : Phase}
    {c : Call} {k : Except Exc c.Resp → Phase} {r : Except Exc c.Resp} (hv : view p = .calls c k)
    (he : exec σ (.worker w) o c out = some (r,σ'))
    (hp : relieved (.handling m p) = true → σ.unsettled w = none)
    (hr : relieved (.handling m (k r)) = true) : σ'.unsettled w = none := by
  cases p with
  | returned => cases hv
  | raised d e => cases hv
  | ackSuccess job started =>
    cases hv
    cases r with
    | ok v => exact Backpressure.settled_ok (Or.inl rfl) ⟨v,rfl⟩ he
    | error e =>
      simp only [relieved_onFailure] at hr
      cases hr
  | nack =>
    cases hv
    cases r with
    | ok v => exact Backpressure.settled_ok (Or.inr rfl) ⟨v,rfl⟩ he
    | error e => cases hr
  | commit site =>
    cases hv
    rw [(exec_effect he).unsettled (by simp) (by simp)]
    cases r with
    | error e => cases hr
    | ok v => cases site <;> first | exact hp rfl | cases hr
  | close site e =>
    cases hv
    rw [(exec_effect he).unsettled (by simp) (by simp)]
    cases r with
    | ok v => exact hp (relieved_leave hr)
    | error e' =>
      have hsite := relieved_leave hr
      cases site <;> cases hsite
  | lookup job =>
    cases hv
    rcases r with e | _ | row
    · cases hr
    · cases hr
    · dsimp only at hr
      split at hr <;> cases hr
  | claim job =>
    cases hv
    rcases r with e | started
    · cases e <;> cases hr
    · cases hr
  | enqueue job started =>
    cases hv
    rcases r with e | v
    · cases e <;> cases hr
    · cases hr
  | processJob | processDocument => cases hv; rcases r with e | _ | row <;> cases hr
  | rollback site e => cases hv; cases r <;> cases site <;> cases hr
  | _ =>
    -- the other three acks, and the calls of `process` and `_handle_failure`
    cases hv
    rcases r with e | v
    · cases hr
    · first | exact Backpressure.settled_ok (Or.inl rfl) ⟨v,rfl⟩ he | cases hr

def Relieved (s : State) : Prop :=
  ∀ w, relieved (s.workers w) = true → s.world.unsettled w = none

theorem relieved_start (m : Message) : relieved (.handling m (start m.body)) = false := by
  unfold start
  split <;> rfl

theorem Relieved.step (h : Relieved s) (hm : Move threshold s l s') : Relieved s' := by
  intro v hv
  by_cases hat : workerAt l = some v
  · cases hm with
    | deliver hw hu hi =>
      obtain rfl := Option.some.inj hat
      simp [State.setWorker, relieved] at hv
    | begin hw =>
      obtain rfl := Option.some.inj hat
      simp [State.setWorker, relieved_start] at hv
    | @call w m p c k o out r σ hw hview he =>
      obtain rfl := Option.some.inj hat
      simp only [State.setWorker, Function.update_self] at hv
      change σ.unsettled w = none
      exact relieved_call hview he (fun hp => h w (by rw [hw]; exact hp)) hv
    | loop hw =>
      obtain rfl := Option.some.inj hat
      exact h _ (by rw [hw]; rfl)
    | stop hw =>
      obtain rfl := Option.some.inj hat
      exact Tokens.requeue_unsettled_self _ _
    | die hw =>
      obtain rfl := Option.some.inj hat
      exact Tokens.requeue_unsettled_self _ _
    | lose hw hu =>
      obtain rfl := Option.some.inj hat
      exact Tokens.requeue_unsettled_self _ _
    | _ => cases hat
  · obtain ⟨hw,hu⟩ := frame_worker hm hat
    rw [hw] at hv
    rw [hu]
    exact h v hv

theorem relieved_of_reachable (h : Reachable (step threshold) init s) : Relieved s :=
  h.invariant (fun _ _ => rfl) (fun _ _ _ _ hs hstep => hs.step (step_move hstep))

/-- A state in which the code cannot go on, although the services work, has
drained. -/
theorem drained_of_stuck (h : Reachable (step threshold) init s) (hid : ∃ id, id ∉ s.world.minted)
    (hs : Stuck threshold s) : Drained s := by
  have hrel := relieved_of_reachable h
  have hnone : ∀ q c, ¬ Awaits threshold s q c := by
    intro q c ha
    obtain ⟨p,-,o,s',hstep⟩ := advances_of_awaits (sound_of_reachable h).opened hid _ _ ha
    rw [hs (answerLabel o p) (by cases p <;> rfl)] at hstep
    cases hstep
  have hworkers : ∀ w, resting (s.workers w) = true ∨ hasRaised (s.workers w) = true := by
    intro w
    cases hw : s.workers w with
    | idle => exact Or.inl rfl
    | dead => exact Or.inl rfl
    | received m =>
      have := hs (.begin w) rfl
      simp [System.step, hw] at this
    | handling m p =>
      cases p with
      | raised d e => exact Or.inr rfl
      | returned =>
        have := hs (.loop w) rfl
        simp [System.step, hw] at this
      | _ => exact absurd (.worker hw rfl) (hnone (.worker w) _)
  refine ⟨hworkers,fun r => ?_,?_,fun w hw => hrel w ?_,fun q => ?_⟩
  · rcases hr : s.requests r with _ | ⟨account,stage⟩
    · rfl
    · cases stage with
      | finished => rfl
      | crashed e => rfl
      | _ => exact absurd (.request hr rfl) (hnone (.request r) _)
  · rintro ⟨w,hw⟩
    have hu := hrel w (by rw [hw]; rfl)
    rcases hready : s.world.ready with _ | ⟨m,rest⟩
    · rfl
    · have := hs (.deliver w 0) rfl
      simp [System.step, hw, hu, hready] at this
  · cases hx : s.workers w <;> rw [hx] at hw <;> first | rfl | cases hw
  · refine List.eq_nil_iff_forall_not_mem.mpr (fun x hx => ?_)
    have ho := (sound_of_reachable h).opened
    cases q with
    | worker w =>
      obtain ⟨c,ha,-⟩ := owner_worker ho hx
      exact hnone _ _ ha
    | request r =>
      obtain ⟨c,ha,-⟩ := owner_request ho hx
      exact hnone _ _ ha

/-- No deadlock. No chain of processes that wait for each other is endless or
closes, and each process that awaits an answer can be given it, or waits for
one that can. -/
theorem no_deadlock (h : Reachable (step threshold) init s) (hid : ∃ id, id ∉ s.world.minted) :
    WellFounded (fun q p => WaitsFor threshold s p q) ∧
      ∀ p c, Awaits threshold s p c →
        ∃ q, Relation.ReflTransGen (WaitsFor threshold s) p q ∧ Advances threshold s q :=
  ⟨wellFounded_waitsFor (sound_of_reachable h).opened,
    advances_of_awaits (sound_of_reachable h).opened hid⟩

def waitRun : List Label := publishRun++[.duplicate 0,.deliver 0 0,.begin 0,.deliver 1 0,.begin 1]++
  List.replicate 3 (.call 0 {} .ok)++List.replicate 3 (.call 1 {} .ok)++[.call 0 {} .ok]

def claimsJob (j : Uuid) : Worker → Bool
  | .handling _ (.claim i) => i = j
  | _ => false

theorem awaits_of_claimsJob {threshold : ℕ} {s : State} {w : ℕ} {j : Uuid}
    (h : claimsJob j (s.workers w) = true) :
    Awaits threshold s (.worker w) (.updateStatus j .started .queued none) := by
  cases hw : s.workers w with
  | handling m p =>
    rw [hw] at h
    cases p with
    | claim i =>
      obtain rfl : i = j := by simpa [claimsJob] using h
      exact .worker hw rfl
    | _ => cases h
  | _ =>
    rw [hw] at h
    cases h

theorem no_deadlock_sample :
    step 100 (after waitRun) (.call 1 {} .ok) = none ∧
      ∃ q, Relation.ReflTransGen (WaitsFor 100 (after waitRun)) (.worker 1) q ∧
        Advances 100 (after waitRun) q := by
  have hrun : ((run (step 100) init waitRun).isSome &&
      (step 100 (after waitRun) (.call 1 {} .ok)).isNone &&
      claimsJob 2 ((after waitRun).workers 1) &&
      decide (9 ∉ (after waitRun).world.minted)) = true := by decide +kernel
  simp only [Bool.and_eq_true, Option.isNone_iff_eq_none, decide_eq_true_eq] at hrun
  obtain ⟨⟨⟨hsome,hnone⟩,hclaims⟩,hid⟩ := hrun
  exact ⟨hnone,(no_deadlock (reachable_of_run waitRun hsome) ⟨9,hid⟩).2 _ _
    (awaits_of_claimsJob hclaims)⟩

/-- Steps of the code in which the services work are work and nothing else. -/
theorem works_of_proceeds (hl : proceeds l = true) :
    works (s,l) = true ∧ arrives (s,l) = false ∧ disturbs (s,l) = false := by
  cases l with
  | call w o out =>
    obtain rfl : out = .ok := by simpa [proceeds] using hl
    refine ⟨rfl,rfl,?_⟩
    cases hw : s.workers w with
    | handling m p => cases p <;> simp [disturbs, hw, refused]
    | _ => simp [disturbs, hw, refused]
  | deliver w i => exact ⟨rfl,rfl,rfl⟩
  | begin w => exact ⟨rfl,rfl,rfl⟩
  | loop w => exact ⟨rfl,rfl,rfl⟩
  | serve r o out => exact ⟨rfl,rfl,rfl⟩
  | _ => cases hl

theorem stuck_of_quiescent (h : Quiescent s) : Stuck threshold s := by
  intro l hl
  cases l with
  | deliver w i => cases hw : s.workers w <;> simp [System.step, hw, h.ready]
  | begin w =>
    have := h.workers w
    cases hw : s.workers w <;> rw [hw] at this <;>
      first | (simp [System.step, hw]; done) | cases this
  | call w o out =>
    have := h.workers w
    cases hw : s.workers w <;> rw [hw] at this <;>
      first | (simp [System.step, callStep, hw]; done) | cases this
  | loop w =>
    have := h.workers w
    cases hw : s.workers w <;> rw [hw] at this <;>
      first | (simp [System.step, hw]; done) | cases this
  | serve r o out =>
    have := h.requests r
    rcases hr : s.requests r with _ | ⟨account,stage⟩
    · simp [System.step, serveStep, hr]
    · rw [hr] at this
      cases stage <;> first | (simp [System.step, serveStep, hr, viewStage]; done) | cases this
  | _ => cases hl

/-- Whatever has happened before, from any point on at which nothing more
comes in and the services work, the code takes a number of steps that the
requests and disturbances before that point bound, and where it can take none
the pipeline has drained. -/
theorem drains {M : ℕ} {t₀ t : List (State × Label)} (h₀ : Trail (step threshold) init t₀ s)
    (ht : Trail (step threshold) s t s') (hM : Allowed (Grants M) (t++t₀))
    (hp : ∀ x ∈ t, proceeds x.2 = true) :
    t.length ≤ 38*t₀.countP arrives+27*(t₀.countP disturbs+M*t₀.countP arrives) ∧
      ((∃ id, id ∉ s'.world.minted) → Stuck threshold s' → Drained s') := by
  have hall := h₀.trans ht
  refine ⟨?_,fun hid hs => drained_of_stuck ⟨_,hall⟩ hid hs⟩
  have hbound := total_bounded hall
  have hbudget := budget_bounded hall hM
  have hworks : t.countP works = t.length :=
    List.countP_eq_length.mpr (fun x hx => (works_of_proceeds (hp x hx)).1)
  have harrives : t.countP arrives = 0 :=
    List.countP_eq_zero.mpr (fun x hx => by simp [(works_of_proceeds (s := x.1) (hp x hx)).2.1])
  have hdisturbs : t.countP disturbs = 0 :=
    List.countP_eq_zero.mpr (fun x hx => by simp [(works_of_proceeds (s := x.1) (hp x hx)).2.2])
  simp only [List.countP_append, harrives, Nat.zero_add] at hbudget
  simp only [total_work, total_credit, List.countP_append, hworks, harrives, hdisturbs] at hbound
  omega

def finishLabels : List Label := List.replicate 3 (.serve 1 {} .ok)++
  List.replicate 5 (.call 0 {} .ok)++[.call 0 { uuid := 3 } .ok]++
  List.replicate 4 (.call 0 {} .ok)++[.loop 0]

def finishRun : List Label := claimRun++finishLabels

def grantsAtMost (M : ℕ) : Label → Bool
  | .serve _ o _ => o.maxAttempts ≤ M
  | _ => true

theorem grants_of_all {M : ℕ} {ls : List Label} (h : ls.all (grantsAtMost M) = true) {l : Label}
    (hl : l ∈ ls) (s : State) : Grants M s l := by
  have := List.all_eq_true.mp h l hl
  cases l with
  | serve r o out =>
    change o.maxAttempts ≤ M
    simpa [grantsAtMost] using this
  | _ => trivial

theorem drains_sample : Drained (after finishRun) ∧
    (path (step 100) (after claimRun) finishLabels).length ≤
      38*(path (step 100) init claimRun).countP arrives+
        27*((path (step 100) init claimRun).countP disturbs+
          3*(path (step 100) init claimRun).countP arrives) := by
  have hrun : ((run (step 100) init finishRun).isSome && finishRun.all (below 2) &&
      (after finishRun).world.ready.isEmpty && (List.range 2).all (restsAt (after finishRun)) &&
      finishRun.all (grantsAtMost 3) && finishLabels.all proceeds &&
      decide (9 ∉ (after finishRun).world.minted)) = true := by decide +kernel
  simp only [Bool.and_eq_true, List.isEmpty_iff, decide_eq_true_eq] at hrun
  obtain ⟨⟨⟨⟨⟨⟨hsome,hbelow⟩,hready⟩,hfirst⟩,hgrants⟩,hproceeds⟩,hid⟩ := hrun
  have hq : Quiescent (after finishRun) := quiescent_after hsome hbelow hready hfirst
  have hM : Allowed (Grants 3) (path (step 100) (after claimRun) finishLabels++
      path (step 100) init claimRun) := by
    intro x hx
    refine grants_of_all hgrants ?_ x.1
    rcases List.mem_append.mp hx with hx | hx
    · exact List.mem_append_right _ (mem_path hx)
    · exact List.mem_append_left _ (mem_path hx)
  have hd := drains (trail_path claimRun (isSome_of_append hsome)) (trail_path_append hsome).2 hM
    (fun x hx => List.all_eq_true.mp hproceeds _ (mem_path hx))
  exact ⟨hd.2 ⟨9,hid⟩ (stuck_of_quiescent hq),hd.1⟩

/-- A run without deaths in which the broker and the job table answer ends
with every job finished: where the code can go no further, nothing is left to
do, as long as one worker is there to do it and none has raised. -/
theorem calm_run_finishes {f : Outcomes} {t : List (State × Label)}
    (ht : Trail (step threshold) init t s) (ha : Allowed (Calm threshold f) t)
    (hid : ∃ id, id ∉ s.world.minted) (hs : Stuck threshold s) (hidle : ∃ w, s.workers w = .idle)
    (hraised : ∀ w, hasRaised (s.workers w) = false) :
    Quiescent s ∧ ∀ j row, s.world.db.jobs.get j = some row →
      row.status = .completed ∨ row.status = .failed := by
  have hd := drained_of_stuck ⟨t,ht⟩ hid hs
  have hrest : ∀ w, resting (s.workers w) = true := by
    intro w
    refine (hd.workers w).resolve_right (fun h => ?_)
    rw [hraised w] at h
    cases h
  have hq : Quiescent s := ⟨hd.ready hidle,fun w => hd.unsettled w (hrest w),hrest,hd.requests⟩
  exact ⟨hq,fun j row hrow => hq.finished ht ha hrow⟩

theorem calm_run_finishes_sample :
    ∃ row, (after retryRun).world.db.jobs.get 2 = some row ∧ row.attempts = 2 ∧
      (row.status = .completed ∨ row.status = .failed) := by
  have hrun : (passes (step 100) (calmly 100 retryOutcomes) init retryRun &&
      (run (step 100) init retryRun).isSome && retryRun.all (below 2) &&
      decide (9 ∉ (after retryRun).world.minted) &&
      ((after retryRun).world.db.jobs.get 2).any (fun row => row.attempts = 2)) = true := by
    decide +kernel
  simp only [Bool.and_eq_true, decide_eq_true_eq] at hrun
  obtain ⟨⟨⟨⟨hpass,hsome⟩,hbelow⟩,hid⟩,hany⟩ := hrun
  obtain ⟨t,ht,ha,-⟩ := trail_of_passes retryRun hpass
  obtain ⟨row,hrow,hatt⟩ := (Option.any_eq_true _ _).mp hany
  have hq := quiescent_retryRun
  have hne : ∀ w, hasRaised ((after retryRun).workers w) = false := by
    intro w
    have := hq.workers w
    cases hw : (after retryRun).workers w <;> rw [hw] at this <;> first | rfl | cases this
  have hidle : (after retryRun).workers 2 = .idle :=
    (untouched_after hsome hbelow le_rfl).1
  exact ⟨row,hrow,by simpa using hatt,(calm_run_finishes ht (fun x hx => calm_of_calmly (ha x hx))
    ⟨9,hid⟩ (stuck_of_quiescent hq) ⟨2,hidle⟩ hne).2 2 row hrow⟩

end Relief

end DocPipeline.Progress
