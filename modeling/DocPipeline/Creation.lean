import DocPipeline.Publication

/-!
# Creating a job

`JobService.create` changes two things outside its own memory: the commit of
its session inserts the row, and the call after it publishes the message. A
deed is one such change. The deeds of a request are read off the calls it has
made, so where it raised decides what it has left behind.
-/

set_option autoImplicit false

namespace DocPipeline.Creation
open DocPipeline.Identifiers DocPipeline.Records DocPipeline.Database DocPipeline.Calls
open DocPipeline.Consumer DocPipeline.Routes DocPipeline.System DocPipeline.Moves
open DocPipeline.Effects DocPipeline.Answers DocPipeline.Transactions DocPipeline.Pending
open DocPipeline.Reservations DocPipeline.Knowledge DocPipeline.Ledger DocPipeline.Bookkeeping
open DocPipeline.Exclusion DocPipeline.Publication LabelledRuns EffectProgram KeyedTable

inductive Deed where
  | row (job : JobRow)
  | message (payload : Json)

def deedAt : Stage → Option Deed
  | .commitJob job => some (.row job)
  | .enqueueJob job => some (.message (newJobPayload job))
  | _ => none

def deedOf (x : Stage × Outcome) : Option Deed := if Outcome.took x.2 then deedAt x.1 else none

def serveOf (r : ℕ) (x : State × Label) : Option (Stage × Outcome) :=
  match x.2, x.1.requests r with
  | .serve q _ out, some y => if q = r then some (y.stage,out) else none
  | _, _ => none

def servesOf (r : ℕ) (t : List (State × Label)) : List (Stage × Outcome) := t.filterMap (serveOf r)

def deeds (r : ℕ) (t : List (State × Label)) : List Deed := (servesOf r t).filterMap deedOf

def Does (σ σ' : World) : Option Deed → Prop
  | none => σ'.db.jobs = σ.db.jobs ∧ σ'.ready = σ.ready
  | some (.row job) => σ.db.jobs.get job.id = none ∧ σ'.db.jobs = σ.db.jobs.insert job ∧
      σ'.ready = σ.ready
  | some (.message payload) => σ'.db.jobs = σ.db.jobs ∧
      σ'.ready = σ.ready++[⟨.json payload,.api⟩]

section Steps
variable {threshold : ℕ} {s s' : State} {l : Label} {r : ℕ}

theorem serveOf_self {o : Oracle} {out : Outcome} {x : Request} (hq : s.requests r = some x) :
    serveOf r (s,.serve r o out) = some (x.stage,out) := by
  simp [serveOf, hq]

theorem serveOf_other (h : ∀ o out, l ≠ .serve r o out) : serveOf r (s,l) = none := by
  cases l with
  | serve q o out =>
    have hne : q ≠ r := fun hq => h o out (by rw [hq])
    cases hq : s.requests r <;> simp [serveOf, hq, hne]
  | _ => rfl

/-- A call of a request whose stage has no deed. -/
theorem does_nothing {x : Stage} {account : AccountId} {c : Call} {k : Except Exc c.Resp → Stage}
    {σ σ' : World} {o : Oracle} {out : Outcome} {y : Except Exc c.Resp}
    (hop : openedStage account x (σ.writesOf (.request r))) (hno : deedAt x = none)
    (hv : viewStage threshold x = .calls c k)
    (he : exec σ (.request r) o c out = some (y,σ')) :
    σ'.db.jobs = σ.db.jobs ∧ σ'.ready = σ.ready := by
  have heff := exec_effect he
  refine ⟨?_,heff.ready ?_ ?_⟩
  · by_cases hc : c = .commit
    · subst hc
      obtain ⟨-,rfl⟩ | ⟨-,rfl,-⟩ := exec_commit he
      · rcases stage_at_commit hv hop with hws | ⟨job,rfl,-⟩ | ⟨id,url,row,-,hws,-⟩
        · rw [(commit_nil hws).1]
        · cases hno
        · simp [World.commit, World.discard, hws, Write.apply]
      · rfl
    · rw [heff.db hc]
  · rintro payload rfl
    obtain ⟨job,rfl,-⟩ := viewStage_enqueue hv
    cases hno
  · rintro rfl
    cases x <;> cases hv

/-- A step of a request changes the jobs and the queue by its deed alone. -/
theorem does_step (hs : Sound s) (hm : Move threshold s l s') (hat : requestAt l = some r) :
    Does s.world s'.world ((serveOf r (s,l)).bind deedOf) := by
  cases hm with
  | arrive account route hr =>
    obtain rfl := Option.some.inj hat
    exact ⟨rfl,rfl⟩
  | abort hq =>
    obtain rfl := Option.some.inj hat
    exact ⟨rfl,rfl⟩
  | @serve q x c k o out y σ hq hv he =>
    obtain rfl := Option.some.inj hat
    have hop := hs.opened.requests q
    rw [hq] at hop
    rw [serveOf_self hq, Option.bind_some]
    obtain ⟨account,stage⟩ := x
    cases hd : deedAt stage with
    | none =>
      have hnone : deedOf (stage,out) = none := by simp [deedOf, hd]
      rw [hnone]
      have h := does_nothing hop hd hv he
      exact h
    | some d =>
      cases stage with
      | commitJob job =>
        cases hv
        have hws := hop.1
        have hfresh := (hs.guarded.fenced.isolated.ready (.request q) (.insertJob job)
          (by rw [hws]; simp)).1
        obtain ⟨htook,rfl⟩ | ⟨htook,rfl,-⟩ := exec_commit he
        · simp only [deedOf, htook, if_true, deedAt, Does]
          exact ⟨hfresh,by simp [World.record, World.commit, World.discard, hws, Write.apply],rfl⟩
        · simp only [deedOf, htook]
          exact ⟨rfl,rfl⟩
      | enqueueJob job =>
        cases hv
        cases out with
        | ok =>
          cases he
          exact ⟨rfl,rfl⟩
        | raises f =>
          cases he
          exact ⟨rfl,rfl⟩
        | raisesAfter f =>
          cases he
          exact ⟨rfl,rfl⟩
      | _ => cases hd
  | _ => cases hat

end Steps

def Made (dto : CreateJobDTO) (job : JobRow) : Prop :=
  ∃ id m now again, job = newJob dto id m now again

def Untouched (cs : List (Stage × Outcome)) : Prop :=
  cs.filterMap deedOf = [] ∧ ∀ job out, (.enqueueJob job,out) ∉ cs

def Interrupted (dto : CreateJobDTO) (cs : List (Stage × Outcome)) : Prop :=
  ∃ job, Made dto job ∧ (∃ out, (.enqueueJob job,out) ∈ cs ∧ out ≠ .ok) ∧
    (cs.filterMap deedOf = [.row job] ∨
      cs.filterMap deedOf = [.message (newJobPayload job),.row job])

def served : Stage → Bool
  | .respond _ | .commit _ | .rollback _ _ | .close _ _ | .respondError _ => true
  | .finished | .crashed _ => true
  | _ => false

/-- How far `JobService.create` has come, from the calls made so far. -/
def Progress (dto : CreateJobDTO) (cs : List (Stage × Outcome)) : Stage → Prop
  | .findDocument d => d = dto ∧ Untouched cs
  | .checkObject d _ => d = dto ∧ Untouched cs
  | .checkDepth d _ => d = dto ∧ Untouched cs
  | .insertJob d _ => d = dto ∧ Untouched cs
  | .commitJob job => Made dto job ∧ Untouched cs
  | .enqueueJob job => Made dto job ∧ cs.filterMap deedOf = [.row job]
  | .respond (.jobCreated response) => ∃ job, response = toResponse job ∧ Made dto job ∧
      cs.filterMap deedOf = [.message (newJobPayload job),.row job]
  | .rollback false _ => Untouched cs ∨ Interrupted dto cs
  | x => served x = true

/-- A commit that raises has had no effect. -/
def cleanCommit : Stage × Outcome → Bool
  | (.commitJob _,.raisesAfter _) => false
  | _ => true

section Runs
variable {threshold : ℕ} {s s' : State} {l : Label} {r : ℕ} {dto : CreateJobDTO}
  {cs : List (Stage × Outcome)} {t : List (State × Label)}

theorem deeds_cons_none {x : Stage} {out : Outcome} (h : deedAt x = none) :
    ((x,out)::cs).filterMap deedOf = cs.filterMap deedOf := by
  rw [List.filterMap_cons_none]
  simp [deedOf, h]

theorem Untouched.cons {x : Stage} {out : Outcome} (h : Untouched cs) (hd : deedAt x = none) :
    Untouched ((x,out)::cs) := by
  refine ⟨by rw [deeds_cons_none hd, h.1],fun job o hx => ?_⟩
  rcases List.mem_cons.mp hx with heq | hx
  · cases heq
    cases hd
  · exact h.2 job o hx

theorem progress_leave (dto : CreateJobDTO) (cs : List (Stage × Outcome)) (sent : Bool)
    (e : Option Exc) : Progress dto cs (leaveRequest sent e) := by
  cases sent <;> cases e <;> rfl

/-- One call of the request. -/
theorem progress_serve {x : Stage} {c : Call} {k : Except Exc c.Resp → Stage} {σ σ' : World}
    {o : Oracle} {out : Outcome} {y : Except Exc c.Resp} (h : Progress dto cs x)
    (hv : viewStage threshold x = .calls c k) (he : exec σ (.request r) o c out = some (y,σ'))
    (hclean : cleanCommit (x,out) = true) : Progress dto ((x,out)::cs) (k y) := by
  cases x with
  | findDocument d =>
    obtain ⟨rfl,hu⟩ := h
    cases hv
    rcases y with e | _ | document
    · exact Or.inl (hu.cons rfl)
    · exact Or.inl (hu.cons rfl)
    · exact ⟨rfl,hu.cons rfl⟩
  | checkObject d document =>
    obtain ⟨rfl,hu⟩ := h
    cases hv
    rcases y with e | _ | _
    · exact Or.inl (hu.cons rfl)
    · exact Or.inl (hu.cons rfl)
    · exact ⟨rfl,hu.cons rfl⟩
  | checkDepth d document =>
    obtain ⟨rfl,hu⟩ := h
    cases hv
    rcases y with e | depth
    · exact Or.inl (hu.cons rfl)
    · dsimp only
      split
      · exact Or.inl (hu.cons rfl)
      · exact ⟨rfl,hu.cons rfl⟩
  | insertJob d document =>
    obtain ⟨rfl,hu⟩ := h
    cases hv
    rcases y with e | job
    · exact Or.inl (hu.cons rfl)
    · obtain ⟨-,-,-,hmade,-⟩ := ok_createJob he
      exact ⟨⟨_,_,_,_,hmade⟩,hu.cons rfl⟩
  | commitJob job =>
    obtain ⟨hmade,hu⟩ := h
    cases hv
    rcases y with e | _
    · -- the commit raised, so it had no effect
      refine Or.inl ⟨?_,fun j o hx => ?_⟩
      · cases out with
        | ok => cases he
        | raises f => exact hu.1
        | raisesAfter f => cases hclean
      · rcases List.mem_cons.mp hx with heq | hx
        · cases heq
        · exact hu.2 j o hx
    · obtain ⟨rfl,-⟩ := exec_ok he
      exact ⟨hmade,by simpa [deedOf, Outcome.took, deedAt] using hu.1⟩
  | enqueueJob job =>
    obtain ⟨hmade,hd⟩ := h
    cases hv
    rcases y with e | _
    · refine Or.inr ⟨job,hmade,⟨out,List.mem_cons_self,?_⟩,?_⟩
      · rintro rfl
        cases he
      · cases out with
        | ok => cases he
        | raises f => exact Or.inl (by simpa [deedOf, Outcome.took] using hd)
        | raisesAfter f => exact Or.inr (by simpa [deedOf, Outcome.took, deedAt] using hd)
    · obtain ⟨rfl,-⟩ := exec_ok he
      exact ⟨job,rfl,hmade,by simpa [deedOf, Outcome.took, deedAt] using hd⟩
  | respond response =>
    cases hv
    cases y <;> rfl
  | commit response =>
    cases hv
    cases y <;> rfl
  | rollback sent e =>
    cases hv
    cases y <;> rfl
  | close sent e =>
    cases hv
    cases y <;> exact progress_leave _ _ _ _
  | respondError e =>
    cases hv
    cases y <;> rfl
  | finished => cases hv
  | crashed e => cases hv
  | _ => cases h

theorem progress_trail {a : AccountId} (hq : s.requests r = some ⟨a,.findDocument dto⟩)
    (ht : Trail (step threshold) s t s') (hclean : ∀ x ∈ servesOf r t, cleanCommit x = true) :
    ∃ x, s'.requests r = some ⟨a,x⟩ ∧ Progress dto (servesOf r t) x := by
  induction ht with
  | start => exact ⟨_,hq,rfl,rfl,by simp [servesOf]⟩
  | @next t b b' l ht hstep ih =>
    have hm := step_move hstep
    cases hserve : serveOf r (b,l) with
    | none =>
      rw [servesOf, List.filterMap_cons_none hserve] at hclean ⊢
      obtain ⟨x,hx,hp⟩ := ih hclean
      by_cases hat : requestAt l = some r
      · cases hm with
        | arrive account route hr =>
          obtain rfl := Option.some.inj hat
          rw [hr] at hx
          cases hx
        | serve hq' hv he =>
          obtain rfl := Option.some.inj hat
          rw [serveOf_self hq'] at hserve
          cases hserve
        | abort hq' =>
          obtain rfl := Option.some.inj hat
          obtain rfl := Option.some.inj (hx.symm.trans hq')
          exact ⟨.crashed (.other "aborted"),by simp [State.setStage],rfl⟩
        | _ => cases hat
      · exact ⟨x,by rw [frame_request hm hat, hx],hp⟩
    | some y =>
      rw [servesOf, List.filterMap_cons_some hserve] at hclean ⊢
      obtain ⟨x,hx,hp⟩ := ih (fun z hz => hclean z (List.mem_cons_of_mem _ hz))
      by_cases hl : ∃ o out, l = .serve r o out
      · obtain ⟨o,out,rfl⟩ := hl
        cases hm with
        | @serve _ z c k _ _ v σ hq' hv he =>
          obtain rfl := Option.some.inj (hx.symm.trans hq')
          obtain rfl := Option.some.inj ((serveOf_self hx).symm.trans hserve)
          exact ⟨k v,by simp [State.setStage],
            progress_serve hp hv he (hclean _ List.mem_cons_self)⟩
      · rw [serveOf_other (fun o out h => hl ⟨o,out,h⟩)] at hserve
        cases hserve

theorem served_serve {x : Stage} {c : Call} {k : Except Exc c.Resp → Stage}
    (h : served x = true) (hv : viewStage threshold x = .calls c k) (y : Except Exc c.Resp) :
    served (k y) = true := by
  cases x with
  | close sent e =>
    cases hv
    cases y <;> cases sent <;> first | rfl | (cases e <;> rfl)
  | finished => cases hv
  | crashed e => cases hv
  | respond _ | commit _ | rollback _ _ | respondError _ =>
    cases hv
    cases y <;> rfl
  | _ => cases h

/-- After the service call the exit code of the session and the response
change neither the jobs nor the queue. -/
theorem no_deeds_after {a : AccountId} {x : Stage} (hq : s.requests r = some ⟨a,x⟩)
    (hx : served x = true) (ht : Trail (step threshold) s t s') : deeds r t = [] := by
  suffices h : (∃ y, s'.requests r = some ⟨a,y⟩ ∧ served y = true) ∧ deeds r t = [] from h.2
  induction ht with
  | start => exact ⟨⟨x,hq,hx⟩,rfl⟩
  | @next t b b' l ht hstep ih =>
    obtain ⟨⟨y,hy,hserved⟩,hnone⟩ := ih
    have hm := step_move hstep
    unfold deeds servesOf at hnone ⊢
    by_cases hat : requestAt l = some r
    · cases hm with
      | arrive account route hr =>
        obtain rfl := Option.some.inj hat
        rw [hr] at hy
        cases hy
      | @serve q z c k o out v σ hq' hv he =>
        obtain rfl := Option.some.inj hat
        obtain rfl := Option.some.inj (hy.symm.trans hq')
        refine ⟨⟨k v,by simp [State.setStage],served_serve hserved hv v⟩,?_⟩
        rw [List.filterMap_cons_some (serveOf_self hy), deeds_cons_none, hnone]
        cases y <;> first | rfl | cases hserved
      | abort hq' =>
        obtain rfl := Option.some.inj hat
        obtain rfl := Option.some.inj (hy.symm.trans hq')
        refine ⟨⟨.crashed (.other "aborted"),by simp [State.setStage],rfl⟩,?_⟩
        rw [List.filterMap_cons_none (serveOf_other (by simp)), hnone]
      | _ => cases hat
    · refine ⟨⟨y,by rw [frame_request hm hat, hy],hserved⟩,?_⟩
      rw [List.filterMap_cons_none, hnone]
      apply serveOf_other
      rintro o out rfl
      exact hat rfl

def Lasts (db : Tables) (job : JobRow) : Prop :=
  ∃ row, db.jobs.get job.id = some row ∧ row.accountId = job.accountId ∧
    row.documentId = job.documentId

theorem Lasts.step (hs : Sound s) (hm : Move threshold s l s') {job : JobRow}
    (h : Lasts s.world.db job) : Lasts s'.world.db job := by
  obtain ⟨row,hrow,hacc,hdoc⟩ := h
  obtain ⟨row',hrow',rfl | hr⟩ := step_evolve hs hm hrow
  · exact ⟨row',hrow',hacc,hdoc⟩
  · exact ⟨row',hrow',hr.account.trans hacc,hr.document.trans hdoc⟩

theorem lasts_of_deed (hr : Reachable (step threshold) init s)
    (ht : Trail (step threshold) s t s') {job : JobRow} (hd : .row job ∈ deeds r t) :
    Lasts s'.world.db job := by
  induction ht with
  | start => cases hd
  | @next t b b' l ht hstep ih =>
    obtain ⟨t₀,ht₀⟩ := hr
    have hs := sound_of_reachable ⟨_,ht₀.trans ht⟩
    have hm := step_move hstep
    unfold deeds servesOf at hd ih
    cases hserve : serveOf r (b,l) with
    | none =>
      rw [List.filterMap_cons_none hserve] at hd
      exact (ih hd).step hs hm
    | some y =>
      rw [List.filterMap_cons_some hserve] at hd
      cases hdeed : deedOf y with
      | none =>
        rw [List.filterMap_cons_none hdeed] at hd
        exact (ih hd).step hs hm
      | some d =>
        rw [List.filterMap_cons_some hdeed] at hd
        rcases List.mem_cons.mp hd with rfl | hd
        · have hat : requestAt l = some r := by
            by_contra hne
            rw [serveOf_other] at hserve
            · cases hserve
            · rintro o out rfl
              exact hne rfl
          have hdoes := does_step hs hm hat
          rw [hserve, Option.bind_some, hdeed] at hdoes
          obtain ⟨hfresh,hjobs,-⟩ := hdoes
          exact ⟨job,by rw [hjobs, Table.get_insert hfresh]; simp,rfl,rfl⟩
        · exact (ih hd).step hs hm

def rowFor (document : Uuid) (x : State × Label) : Option JobRow :=
  match x.2 with
  | .serve r _ _ => match (serveOf r x).bind deedOf with
    | some (.row job) => if job.documentId = document then some job else none
    | _ => none
  | _ => none

def Finishes (document : Uuid) (σ σ' : World) : Prop :=
  ∃ id old new, σ.db.jobs.get id = some old ∧ old.documentId = document ∧
    old.status.active = true ∧ σ'.db.jobs.get id = some new ∧ new.status.active = false

def Busy (document : Uuid) (db : Tables) : Prop :=
  ∃ id row, db.jobs.get id = some row ∧ row.documentId = document ∧ row.status.active = true

theorem Busy.step {document : Uuid} (hs : Sound s) (hm : Move threshold s l s')
    (h : Busy document s.world.db) (hf : ¬ Finishes document s.world s'.world) :
    Busy document s'.world.db := by
  obtain ⟨id,row,hrow,hdoc,hact⟩ := h
  obtain ⟨row',hrow',hr⟩ := step_evolve hs hm hrow
  refine ⟨id,row',hrow',?_,?_⟩
  · rcases hr with rfl | hr
    · exact hdoc
    · exact hr.document.trans hdoc
  · by_contra hno
    exact hf ⟨id,row,row',hrow,hdoc,hact,hrow',by simpa using hno⟩

/-- A row is inserted only while no job of its document is active. -/
theorem rowFor_step {document : Uuid} {job : JobRow} (hr : Reachable (step threshold) init s)
    (hm : Move threshold s l s') (h : rowFor document (s,l) = some job) :
    ¬ Busy document s.world.db ∧ Busy document s'.world.db := by
  have hs := sound_of_reachable hr
  cases hm with
  | @serve q x c k o out y σ hq hv he =>
    have hop := hs.opened.requests q
    have hknow := hs.informed.requests q
    rw [hq] at hop hknow
    obtain ⟨account,stage⟩ := x
    simp only [rowFor, serveOf_self hq, Option.bind_some, deedOf] at h
    cases stage with
    | commitJob row =>
      cases hv
      obtain ⟨htook,rfl⟩ | ⟨htook,rfl,-⟩ := exec_commit he
      · simp only [htook, if_true, deedAt] at h
        split at h
        · rename_i hdoc
          obtain ⟨hws,-,dto,id,m,now,again,hnew⟩ := hop
          obtain ⟨hfresh,hindex⟩ := hs.guarded.fenced.isolated.ready (.request q) (.insertJob row)
            (by rw [hws]; simp)
          refine ⟨?_,row.id,row,?_,hdoc,by rw [hnew]; rfl⟩
          · rintro ⟨j,old,hold,hdoc',hact⟩
            obtain ⟨d,hd,hown⟩ := book_owner (book_of_reachable hr) hold
            obtain ⟨d',⟨hd',hown'⟩,-⟩ := hknow
            rw [hdoc'] at hd
            rw [hdoc] at hd'
            obtain rfl := Option.some.inj (hd.symm.trans hd')
            exact noActive_iff.mp hindex j old hold hact (hown.symm.trans hown')
              (hdoc'.trans hdoc.symm)
          · simp [World.record, World.commit, World.discard, hws, Write.apply, Table.get_insert hfresh]
        · cases h
      · simp [htook] at h
    | enqueueJob row =>
      simp only [deedAt] at h
      cases out <;> simp [Outcome.took] at h
    | _ => simp [deedAt] at h
  | _ => cases h

/-- While no job of a document reaches a terminal status at most one row is
inserted for it. -/
theorem rows_le_one {document : Uuid} (hr : Reachable (step threshold) init s)
    (ht : Trail (step threshold) s t s')
    (hf : ∀ b l b', (b,l) ∈ t → step threshold b l = some b' →
      ¬ Finishes document b.world b'.world) :
    t.filterMap (rowFor document) = [] ∨
      (t.filterMap (rowFor document)).length = 1 ∧ Busy document s'.world.db := by
  induction ht with
  | start => exact Or.inl rfl
  | @next t b b' l ht hstep ih =>
    obtain ⟨t₀,ht₀⟩ := hr
    have hrb : Reachable (step threshold) init b := ⟨_,ht₀.trans ht⟩
    have hm := step_move hstep
    have hno := hf b l b' List.mem_cons_self hstep
    have hprev := ih (fun x m x' hx => hf x m x' (List.mem_cons_of_mem _ hx))
    cases hrow : rowFor document (b,l) with
    | none =>
      rw [List.filterMap_cons_none hrow]
      rcases hprev with h | ⟨h,hbusy⟩
      · exact Or.inl h
      · exact Or.inr ⟨h,hbusy.step (sound_of_reachable hrb) hm hno⟩
    | some job =>
      rw [List.filterMap_cons_some hrow]
      obtain ⟨hfree,hbusy⟩ := rowFor_step hrb hm hrow
      rcases hprev with h | ⟨-,h⟩
      · exact Or.inr ⟨by simp [h],hbusy⟩
      · exact absurd h hfree

structure Created (dto : CreateJobDTO) (job : JobRow) (σ : World) : Prop where
  status : job.status = .queued
  attempts : job.attempts = 0
  account : job.accountId = dto.accountId
  document : job.documentId = dto.documentId
  committed : ∃ row, σ.db.jobs.get job.id = some row
  uploaded : ∃ d, σ.db.documents.get dto.documentId = some d ∧ d.accountId = dto.accountId ∧
    (σ.objects d.objectKey).isSome

theorem created_of_deed (hr : Reachable (step threshold) init s)
    (ht : Trail (step threshold) s t s') {job : JobRow} (hmade : Made dto job)
    (hd : .row job ∈ deeds r t) : Created dto job s'.world := by
  obtain ⟨row,hrow,hacc,hdoc⟩ := lasts_of_deed hr ht hd
  obtain ⟨t₀,ht₀⟩ := hr
  obtain ⟨d,⟨hget,hown⟩,hup⟩ := (addressed_of_reachable ⟨_,ht₀.trans ht⟩).sources _ _ hrow
  obtain ⟨id,m,now,again,rfl⟩ := hmade
  rw [hdoc] at hget
  exact ⟨rfl,rfl,rfl,rfl,⟨row,hrow⟩,d,hget,hown.trans hacc,hup⟩

/-- The calls of `JobService.create`, whatever else happens meanwhile. Each
step of a request changes the jobs and the queue by its deed only. A call
that returns has inserted the row of a new job and then published one message
for it. A call that raises has done nothing, unless `enqueue` raised, which
leaves the row and at most one message. What follows the call in the request
does nothing. And no two rows are inserted for a document unless one of its
jobs finishes. -/
theorem create_all_or_nothing (hr : Reachable (step threshold) init s)
    (ht : Trail (step threshold) s t s') :
    (∀ r b l b', (b,l) ∈ t → requestAt l = some r → step threshold b l = some b' →
      Does b.world b'.world ((serveOf r (b,l)).bind deedOf)) ∧
    (∀ r a dto, s.requests r = some ⟨a,.findDocument dto⟩ →
      (∀ x ∈ servesOf r t, cleanCommit x = true) → dto.accountId = a ∧
      (∀ response, s'.requests r = some ⟨a,.respond (.jobCreated response)⟩ →
        ∃ job, response = toResponse job ∧ Created dto job s'.world ∧
          deeds r t = [.message (newJobPayload job),.row job] ∧
          decode (.json (newJobPayload job)) = .job job.id) ∧
      (∀ e, s'.requests r = some ⟨a,.rollback false e⟩ →
        (deeds r t = [] ∧ ∀ job out, (.enqueueJob job,out) ∉ servesOf r t) ∨
        ∃ job out, Created dto job s'.world ∧ (.enqueueJob job,out) ∈ servesOf r t ∧ out ≠ .ok ∧
          (deeds r t = [.row job] ∨ deeds r t = [.message (newJobPayload job),.row job])) ∧
      (∀ x, s'.requests r = some ⟨a,x⟩ → served x = true →
        ∀ t' s'', Trail (step threshold) s' t' s'' → deeds r t' = [])) ∧
    (∀ document, (∀ b l b', (b,l) ∈ t → step threshold b l = some b' →
        ¬ Finishes document b.world b'.world) →
      (t.filterMap (rowFor document)).length ≤ 1) := by
  refine ⟨fun r b l b' hx hat hstep => ?_,fun r a dto hq hclean => ⟨?_,?_,?_,?_⟩,
    fun document hf => ?_⟩
  · obtain ⟨t₀,ht₀⟩ := hr
    have hrb := (ht₀.trans ht).visited b
      (List.mem_cons_of_mem _ (List.mem_map_of_mem (List.mem_append_left _ hx)))
    exact does_step (sound_of_reachable hrb) (step_move hstep) hat
  · have hop := (sound_of_reachable hr).opened.requests r
    rw [hq] at hop
    exact hop.2
  · intro response hend
    obtain ⟨x,hx,hp⟩ := progress_trail hq ht hclean
    obtain rfl := congrArg Request.stage (Option.some.inj (hend.symm.trans hx))
    obtain ⟨job,hresp,hmade,hd⟩ := hp
    have hmem : .row job ∈ deeds r t := by
      rw [deeds, hd]
      simp
    exact ⟨job,hresp,created_of_deed hr ht hmade hmem,hd,decode_newJobPayload job⟩
  · intro e hend
    obtain ⟨x,hx,hp⟩ := progress_trail hq ht hclean
    obtain rfl := congrArg Request.stage (Option.some.inj (hend.symm.trans hx))
    rcases hp with hu | ⟨job,hmade,⟨out,hmem,hne⟩,hd⟩
    · exact Or.inl hu
    · have hrow : .row job ∈ deeds r t := by
        rcases hd with hd | hd <;> rw [deeds, hd] <;> simp
      exact Or.inr ⟨job,out,created_of_deed hr ht hmade hrow,hmem,hne,hd⟩
  · intro x hx hserved t' s'' ht'
    exact no_deeds_after hx hserved ht'
  · rcases rows_le_one hr ht hf with h | ⟨h,-⟩
    · simp [h]
    · exact h.le

end Runs

def arriveRun : List Label := uploadRun++[.arrive 1 7 (.processDocument 1 [.markdown])]

def createCalls : List Label :=
  List.replicate 3 (.serve 1 {} .ok)++.serve 1 { uuid := 2 } .ok::List.replicate 2 (.serve 1 {} .ok)

def asksFor : Option Request → Option (AccountId × CreateJobDTO)
  | some ⟨a,.findDocument dto⟩ => some (a,dto)
  | _ => none

def answersWith : Option Request → Option (AccountId × JobResponse)
  | some ⟨a,.respond (.jobCreated response)⟩ => some (a,response)
  | _ => none

theorem eq_of_asksFor {q : Option Request} {a : AccountId} {dto : CreateJobDTO}
    (h : asksFor q = some (a,dto)) : q = some ⟨a,.findDocument dto⟩ := by
  unfold asksFor at h
  split at h
  · obtain ⟨rfl,rfl⟩ := Prod.mk.inj (Option.some.inj h)
    rfl
  · cases h

theorem eq_of_answersWith {q : Option Request} {x : AccountId × JobResponse}
    (h : answersWith q = some x) : q = some ⟨x.1,.respond (.jobCreated x.2)⟩ := by
  unfold answersWith at h
  split at h
  · rw [← Option.some.inj h]
  · cases h

theorem create_all_or_nothing_sample : ∃ dto job, dto.accountId = 7 ∧
    Created dto job (after (arriveRun++createCalls)).world ∧
    deeds 1 (path (step 100) (after arriveRun) createCalls) =
      [.message (newJobPayload job),.row job] := by
  have hrun : (run (step 100) init (arriveRun++createCalls)).isSome = true := by decide +kernel
  obtain ⟨hr,ht⟩ := trail_path_append hrun
  have hq : asksFor ((after arriveRun).requests 1) = some (7,⟨7,1,[.markdown]⟩) := by
    decide +kernel
  have hend : ((answersWith ((after (arriveRun++createCalls)).requests 1)).any
      fun x => x.1 = 7) = true := by decide +kernel
  have hclean : (servesOf 1 (path (step 100) (after arriveRun) createCalls)).all cleanCommit =
      true := by decide +kernel
  obtain ⟨⟨a,response⟩,hx,ha⟩ := (Option.any_eq_true _ _).mp hend
  obtain rfl : a = 7 := by simpa using ha
  obtain ⟨hacc,hret,-⟩ := (create_all_or_nothing hr ht).2.1 1 7 _ (eq_of_asksFor hq)
    (List.all_eq_true.mp hclean)
  obtain ⟨job,-,hc,hd,-⟩ := hret response (eq_of_answersWith hx)
  exact ⟨_,job,hacc,hc,hd⟩

end DocPipeline.Creation
