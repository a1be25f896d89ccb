import DocPipeline.Failure

/-!
# Failed claims

The `except DatabaseException` around the claim answers with a nack. It sees
a failure of the UPDATE inside `update_status` only: a connection that cannot
be opened raises the driver's own exception there, and the commit runs in
the exit code of the session, outside the block. These two leave the handler
as exceptions and the message is not returned to the queue.
-/

set_option autoImplicit false

namespace DocPipeline.Nacking
open DocPipeline.Identifiers DocPipeline.Records DocPipeline.Database DocPipeline.Calls
open DocPipeline.Consumer DocPipeline.Routes DocPipeline.System DocPipeline.Moves
open DocPipeline.Effects DocPipeline.Answers DocPipeline.Transactions DocPipeline.Reservations
open DocPipeline.Knowledge DocPipeline.Ledger DocPipeline.Bookkeeping DocPipeline.Exclusion
open DocPipeline.Failure LabelledRuns EffectProgram

def callOf (w : ℕ) (x : State × Label) : Option (Phase × Outcome) :=
  match x.2, x.1.workers w with
  | .call v _ out, .handling _ p => if v = w then some (p,out) else none
  | _, _ => none

def callsOf (w : ℕ) (t : List (State × Label)) : List (Phase × Outcome) := t.filterMap (callOf w)

def claimFails : Phase × Outcome → Bool
  | (.claim _,.raises _) => true
  | (.commit (.claimed _ _),.raises _) => true
  | _ => false

/-- The UPDATE of the claim raises `SQLAlchemyError`, and every other call
succeeds. -/
def mapsFailure : Phase × Outcome → Bool
  | (.claim _,out) => out = .raises .mapped
  | (_,out) => out = .ok

def isNack : Phase × Outcome → Bool
  | (.nack,_) => true
  | _ => false

def isAck : Phase × Outcome → Bool
  | (.ackPoison,_) | (.ackDrop,_) | (.ackSuccess _ _,_) | (.ackFailure,_) => true
  | _ => false

def isProcess : Phase × Outcome → Bool
  | (.processJob _ _,_) => true
  | _ => false

/-- The rest `t` of a run of the handler: the message is nacked once and not
acked, `process` is not called, the handler returns, and none of its steps
changes the committed tables. -/
structure Nacked (threshold w : ℕ) (t : List (State × Label)) (s' : State) : Prop where
  nacks : (callsOf w t).countP isNack = 1
  acks : (callsOf w t).countP isAck = 0
  processes : (callsOf w t).countP isProcess = 0
  returns : ∃ m, s'.workers w = .handling m .returned
  unchanged : ∀ a l b, (a,l) ∈ t → workerAt l = some w → step threshold a l = some b →
    b.world.db = a.world.db

def escaping : Phase → Bool
  | .rollback .claiming _ | .rollback (.claimed _ _) _ => true
  | .close .claiming (some _) | .close (.claimed _ _) (some _) => true
  | .raised _ _ => true
  | _ => false

def past : Phase → Bool
  | .ackPoison | .lookup _ | .claim _ => false
  | .commit (.looked _) | .rollback (.looked _) _ | .close (.looked _) _ => false
  | .commit (.claimed _ _) => false
  | _ => true

section Calls
variable {σ σ' : World} {w : ℕ} {o : Oracle} {out : Outcome} {p : Phase} {c : Call}
  {k : Except Exc c.Resp → Phase} {r : Except Exc c.Resp} {job : Uuid}

theorem past_onFailure (started : JobRow) (e : Exc) : past (onFailure job started e) = true := by
  unfold onFailure
  split <;> rfl

theorem past_leave {site : Site} {e : Option Exc} (h : past (.close site e) = true)
    (e' : Option Exc) : past (leave site e') = true := by
  cases site with
  | looked job => cases h
  | processed job started =>
    cases e' with
    | none => rfl
    | some e => exact past_onFailure started e
  | requeued | failed =>
    rcases e' with _ | e
    · rfl
    · cases e <;> rfl
  | _ => cases e' <;> rfl

theorem past_call (h : past p = true) (hv : view p = .calls c k) (r : Except Exc c.Resp) :
    past (k r) = true := by
  cases p with
  | close site e =>
    cases hv
    cases r <;> exact past_leave h _
  | commit site =>
    cases hv
    cases site <;> first | (cases r <;> rfl) | cases h
  | rollback site e =>
    cases hv
    cases site <;> first | (cases r <;> rfl) | cases h
  | ackSuccess j started =>
    cases hv
    cases r with
    | ok _ => rfl
    | error e => exact past_onFailure started e
  | enqueue j started =>
    cases hv
    rcases r with e | _
    · cases e <;> rfl
    · rfl
  | processJob j started =>
    cases hv
    rcases r with e | _ | row <;> rfl
  | processDocument j started row =>
    cases hv
    rcases r with e | _ | document <;> rfl
  | ackPoison | lookup _ | claim _ => cases h
  | returned | raised _ _ => cases hv
  | _ =>
    cases hv
    cases r <;> rfl

theorem escaping_call (h : escaping p = true) (hv : view p = .calls c k) (r : Except Exc c.Resp) :
    escaping (k r) = true := by
  cases p with
  | rollback site e =>
    cases hv
    cases site <;> first | (cases r <;> rfl) | cases h
  | close site e =>
    cases hv
    rcases e with _ | e
    · cases site <;> cases h
    · cases site <;> first | (cases r <;> rfl) | cases h
  | raised d e => cases hv
  | _ => cases h

end Calls

/-- The nack and the exit code of a session raise only if they fail. -/
theorem ok_iff_outcome {σ σ' : World} {p : Proc} {o : Oracle} {out : Outcome} {c : Call}
    {r : Except Exc c.Resp} (hc : c = .nack ∨ c = .commit ∨ c = .close)
    (he : exec σ p o c out = some (r,σ')) :
    (out = .ok ∧ ∃ v, r = .ok v) ∨ (out ≠ .ok ∧ ∃ e, r = .error e) := by
  cases out with
  | ok =>
    rcases hc with rfl | rfl | rfl <;> cases he <;> exact Or.inl ⟨rfl,_,rfl⟩
  | raises f =>
    cases he
    exact Or.inr ⟨by simp,_,rfl⟩
  | raisesAfter f =>
    refine Or.inr ⟨by simp,?_⟩
    rcases hc with rfl | rfl | rfl <;> cases he <;> exact ⟨_,rfl⟩

inductive Course (job : Uuid) : List (Phase × Outcome) → Phase → Prop
  | begun : Course job [] (.claim job)
  | claiming (started : JobRow) : Course job [(.claim job,.ok)] (.commit (.claimed job started))
  | nacking : Course job [(.claim job,.raises .mapped)] .nack
  | nacked : Course job [(.nack,.ok),(.claim job,.raises .mapped)] (.commit .claiming)
  | leaving : Course job [(.commit .claiming,.ok),(.nack,.ok),(.claim job,.raises .mapped)]
      (.close .claiming none)
  | returned : Course job [(.close .claiming none,.ok),(.commit .claiming,.ok),(.nack,.ok),
      (.claim job,.raises .mapped)] .returned
  | escaping {cs : List (Phase × Outcome)} {p : Phase} (hp : escaping p = true)
      (hc : ∃ x ∈ cs, mapsFailure x = false) : Course job cs p
  | past {cs : List (Phase × Outcome)} {p : Phase} (hp : past p = true)
      (hc : ∀ x ∈ cs, claimFails x = false) : Course job cs p

section Runs
variable {threshold : ℕ} {s s' : State} {w : ℕ} {m : Message} {job : Uuid}

theorem Course.call {cs : List (Phase × Outcome)} {p : Phase} (h : Course job cs p) {σ σ' : World}
    {o : Oracle} {out : Outcome} {c : Call} {k : Except Exc c.Resp → Phase}
    {r : Except Exc c.Resp} (hv : view p = .calls c k)
    (he : exec σ (.worker w) o c out = some (r,σ')) : Course job ((p,out)::cs) (k r) := by
  have hok : ∀ {c : Call} {r : Except Exc c.Resp} {v : c.Resp},
      exec σ (.worker w) o c out = some (r,σ') → r = .ok v → out = .ok := by
    rintro c r v he rfl
    exact (exec_ok he).1
  cases h with
  | begun =>
    cases hv
    rcases exec_updateStatus he with ⟨old,now,again,rfl,rfl,-⟩ | ⟨rfl,rfl,-⟩ | ⟨f,rfl,rfl,-⟩
    · exact .claiming _
    · refine .past rfl ?_
      intro x hx
      obtain rfl := List.mem_singleton.mp hx
      rfl
    · cases f with
      | mapped => exact .nacking
      | unmapped text => exact .escaping rfl ⟨_,List.mem_singleton_self _,by simp [mapsFailure]⟩
  | claiming started =>
    cases hv
    rcases r with e | _
    · exact .escaping rfl ⟨(.claim job,.ok),by simp,by simp [mapsFailure]⟩
    · obtain rfl := hok he rfl
      refine .past rfl ?_
      intro x hx
      simp only [List.mem_cons, List.not_mem_nil, or_false] at hx
      rcases hx with rfl | rfl <;> rfl
  | nacking =>
    cases hv
    rcases ok_iff_outcome (by simp) he with ⟨rfl,v,rfl⟩ | ⟨hne,e,rfl⟩
    · exact .nacked
    · exact .escaping rfl ⟨(.nack,out),List.mem_cons_self,by simpa [mapsFailure] using hne⟩
  | nacked =>
    cases hv
    rcases ok_iff_outcome (by simp) he with ⟨rfl,v,rfl⟩ | ⟨hne,e,rfl⟩
    · exact .leaving
    · exact .escaping rfl ⟨(.commit .claiming,out),List.mem_cons_self,by simpa [mapsFailure] using hne⟩
  | leaving =>
    cases hv
    rcases ok_iff_outcome (by simp) he with ⟨rfl,v,rfl⟩ | ⟨hne,e,rfl⟩
    · exact .returned
    · exact .escaping rfl ⟨(.close .claiming none,out),List.mem_cons_self,by simpa [mapsFailure] using hne⟩
  | returned => cases hv
  | escaping hp hc =>
    obtain ⟨x,hx,hno⟩ := hc
    exact .escaping (escaping_call hp hv r) ⟨x,List.mem_cons_of_mem _ hx,hno⟩
  | past hp hc =>
    refine .past (past_call hp hv r) ?_
    intro x hx
    rcases List.mem_cons.mp hx with rfl | hx
    · cases p with
      | claim _ => cases hp
      | commit site => cases site <;> first | rfl | cases hp
      | _ => rfl
    · exact hc x hx

theorem callOf_self {o : Oracle} {out : Outcome} {p : Phase} (hw : s.workers w = .handling m p) :
    callOf w (s,.call w o out) = some (p,out) := by
  simp [callOf, hw]

theorem callOf_other {l : Label} (h : ∀ o out, l ≠ .call w o out) : callOf w (s,l) = none := by
  cases l with
  | call v o out =>
    have hne : v ≠ w := fun hv => h o out (by rw [hv])
    cases hw : s.workers w <;> simp [callOf, hw, hne]
  | _ => rfl

/-- Along the rest of a run the calls made so far fix where the worker stands. -/
theorem course_of_trail (hw : s.workers w = .handling m (.claim job)) {t : List (State × Label)}
    (ht : Trail (step threshold) s t s') (hlive : ∀ x ∈ t, x.2 ≠ .die w ∧ x.2 ≠ .loop w) :
    ∃ p, s'.workers w = .handling m p ∧ Course job (callsOf w t) p := by
  induction ht with
  | start => exact ⟨_,hw,.begun⟩
  | @next t a b l ht hstep ih =>
    obtain ⟨p,hp,hcourse⟩ := ih (fun x hx => hlive x (List.mem_cons_of_mem _ hx))
    obtain ⟨hd,hl⟩ := hlive _ List.mem_cons_self
    have hm := step_move hstep
    by_cases hcall : ∃ o out, l = .call w o out
    · obtain ⟨o,out,rfl⟩ := hcall
      cases hm with
      | @call _ m' p' c k _ _ r σ hw' hv he =>
        obtain ⟨rfl,rfl⟩ := Worker.handling.inj (hp.symm.trans hw')
        refine ⟨k r,by simp [State.setWorker],?_⟩
        rw [callsOf, List.filterMap_cons_some (callOf_self hp)]
        exact hcourse.call hv he
    · refine ⟨p,(handling_step hm hp hd hl).resolve_right hcall,?_⟩
      rw [callsOf, List.filterMap_cons_none (callOf_other (fun o out h => hcall ⟨o,out,h⟩))]
      exact hcourse

/-- A step of the worker outside the commits of its claim and of its later
sessions leaves the committed tables alone. -/
theorem unchanged_step (hr : Reachable (step threshold) init s) {l : Label}
    (hstep : step threshold s l = some s') (hat : workerAt l = some w)
    (hsite : ∀ o out site, l = .call w o out → s.workers w = .handling m (.commit site) →
      site = .claiming) (hm : ∀ o out, l = .call w o out → ∃ p, s.workers w = .handling m p) :
    s'.world.db = s.world.db := by
  have hmove := step_move hstep
  by_cases hcall : ∃ o out, l = .call w o out
  · obtain ⟨o,out,rfl⟩ := hcall
    obtain ⟨p,hp⟩ := hm o out rfl
    cases hmove with
    | @call _ m' p' c k _ _ r σ hw' hv he =>
      obtain ⟨rfl,rfl⟩ := Worker.handling.inj (hp.symm.trans hw')
      by_cases hc : c = .commit
      · subst hc
        obtain ⟨site,rfl⟩ := phase_at_commit hv
        obtain rfl := hsite o out site rfl hp
        have hop := (sound_of_reachable hr).opened.workers w
        rw [hp] at hop
        obtain ⟨-,rfl⟩ | ⟨-,rfl,-⟩ := exec_commit he
        · exact (commit_nil hop).1
        · rfl
      · exact (exec_effect he).db hc
  · refine (move_idle hmove (fun v o out h => ?_) (fun r o out h => ?_)).db
    · subst h
      obtain rfl := Option.some.inj hat
      exact hcall ⟨o,out,rfl⟩
    · subst h
      cases hat

/-- The worker of the run is in its handler at every step. -/
theorem handling_at {t : List (State × Label)} (hw : s.workers w = .handling m (.claim job))
    (ht : Trail (step threshold) s t s') (hlive : ∀ x ∈ t, x.2 ≠ .die w ∧ x.2 ≠ .loop w) :
    ∀ x ∈ t, ∃ p, x.1.workers w = .handling m p := by
  induction ht with
  | start =>
    intro x hx
    cases hx
  | next ht hstep ih =>
    have hlive' := fun x hx => hlive x (List.mem_cons_of_mem _ hx)
    intro x hx
    rcases List.mem_cons.mp hx with rfl | hx
    · obtain ⟨p,hp,-⟩ := course_of_trail hw ht hlive'
      exact ⟨p,hp⟩
    · exact ih hlive' x hx

/-- A run of the handler whose claim fails in the database without effect
nacks the message and leaves everything else alone exactly when the failure
is a `SQLAlchemyError` of the UPDATE and no other call of the run fails. -/
theorem failed_claim_nacked_iff (hr : Reachable (step threshold) init s)
    (hw : s.workers w = .handling m (.claim job)) {t : List (State × Label)}
    (ht : Trail (step threshold) s t s') (hlive : ∀ x ∈ t, x.2 ≠ .die w ∧ x.2 ≠ .loop w)
    (hend : ended (s'.workers w) = true) (hfail : ∃ x ∈ callsOf w t, claimFails x = true) :
    Nacked threshold w t s' ↔ ∀ x ∈ callsOf w t, mapsFailure x = true := by
  obtain ⟨p,hp,hcourse⟩ := course_of_trail hw ht hlive
  rw [hp] at hend
  generalize hcs : callsOf w t = cs at hcourse hfail
  cases hcourse with
  | returned =>
    refine ⟨fun _ => ?_,fun _ => ?_⟩
    · intro x hx
      simp only [List.mem_cons, List.not_mem_nil, or_false] at hx
      rcases hx with rfl | rfl | rfl | rfl <;> rfl
    · refine ⟨by rw [hcs]; rfl,by rw [hcs]; rfl,by rw [hcs]; rfl,⟨m,hp⟩,?_⟩
      intro a l b hx hat hstep
      obtain ⟨t₀,ht₀⟩ := hr
      have hra := (ht₀.trans ht).visited a
        (List.mem_cons_of_mem _ (List.mem_map_of_mem (List.mem_append_left _ hx)))
      obtain ⟨q,hq⟩ := handling_at hw ht hlive _ hx
      refine unchanged_step (m := m) hra hstep hat ?_ (fun _ _ _ => ⟨q,hq⟩)
      rintro o out site rfl hsite
      have hmem : (Phase.commit site,out) ∈ callsOf w t :=
        List.mem_filterMap.mpr ⟨_,hx,callOf_self hsite⟩
      rw [hcs] at hmem
      simp only [List.mem_cons, List.not_mem_nil, or_false, Prod.mk.injEq] at hmem
      rcases hmem with ⟨h,-⟩ | ⟨h,-⟩ | ⟨h,-⟩ | ⟨h,-⟩ <;> cases h
      rfl
  | escaping hesc hno =>
    refine ⟨fun h => ?_,fun h => ?_⟩
    · obtain ⟨m',hret⟩ := h.returns
      obtain ⟨-,rfl⟩ := Worker.handling.inj (hp.symm.trans hret)
      cases hesc
    · obtain ⟨x,hx,hx'⟩ := hno
      rw [h x hx] at hx'
      cases hx'
  | past hpast hno =>
    obtain ⟨x,hx,hf⟩ := hfail
    rw [hno x hx] at hf
    cases hf
  | _ => cases hend

end Runs

def lookupRun : List Label :=
  publishRun++[.deliver 0 0,.begin 0]++List.replicate 3 (.call 0 {} .ok)

structure FailedClaim (ls ls' : List Label) : Prop where
  reachable : Reachable (step 100) init (after ls)
  found : ∃ m, (after ls).workers 0 = .handling m (.claim 2)
  trail : Trail (step 100) (after ls) (path (step 100) (after ls) ls') (after (ls++ls'))
  live : ∀ x ∈ path (step 100) (after ls) ls', x.2 ≠ .die 0 ∧ x.2 ≠ .loop 0
  ended : ended ((after (ls++ls')).workers 0) = true
  fails : ∃ x ∈ callsOf 0 (path (step 100) (after ls) ls'), claimFails x = true

theorem failedClaim_of_run {ls ls' : List Label}
    (hsome : (run (step 100) init (ls++ls')).isSome = true)
    (hfound : ((after ls).workers 0 matches .handling _ (.claim 2)) = true)
    (hcalls : ls'.all (fun l => l matches .call _ _ _) = true)
    (hend : Failure.ended ((after (ls++ls')).workers 0) = true)
    (hfail : (callsOf 0 (path (step 100) (after ls) ls')).any claimFails = true) :
    FailedClaim ls ls' := by
  obtain ⟨hr,ht⟩ := trail_path_append hsome
  refine ⟨hr,?_,ht,fun x hx => ?_,hend,List.any_eq_true.mp hfail⟩
  · split at hfound
    · rename_i m heq
      exact ⟨m,heq⟩
    · cases hfound
  · have := List.all_eq_true.mp hcalls _ (mem_path hx)
    refine ⟨fun he => ?_,fun he => ?_⟩ <;> rw [he] at this <;> cases this

def lostCommit : List Label :=
  [.call 0 {} .ok,.call 0 {} (.raises .mapped),.call 0 {} .ok,.call 0 {} .ok]

theorem failed_commit_not_nacked : FailedClaim lookupRun lostCommit ∧
    (callsOf 0 (path (step 100) (after lookupRun) lostCommit)).countP isNack = 0 ∧
    ((after (lookupRun++lostCommit)).workers 0 matches .handling _ (.raised _ _)) = true := by
  refine ⟨failedClaim_of_run ?_ ?_ ?_ ?_ ?_,?_,?_⟩ <;> decide +kernel

def refusedUpdate : List Label :=
  .call 0 {} (.raises .mapped)::List.replicate 3 (.call 0 {} .ok)

theorem failed_claim_nacked_iff_sample : FailedClaim lookupRun refusedUpdate ∧
    Nacked 100 0 (path (step 100) (after lookupRun) refusedUpdate)
      (after (lookupRun++refusedUpdate)) := by
  have he : FailedClaim lookupRun refusedUpdate := by
    refine failedClaim_of_run ?_ ?_ ?_ ?_ ?_ <;> decide +kernel
  refine ⟨he,?_⟩
  obtain ⟨m,hw⟩ := he.found
  refine (failed_claim_nacked_iff he.reachable hw he.trail he.live he.ended he.fails).mpr ?_
  have hall : (callsOf 0 (path (step 100) (after lookupRun) refusedUpdate)).all mapsFailure = true := by
    decide +kernel
  exact List.all_eq_true.mp hall

end DocPipeline.Nacking
