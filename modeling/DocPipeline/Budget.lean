import DocPipeline.Publication

/-!
# Attempts and publications

Every call of `process` and every published message belongs to one attempt
of its job, the message of the API to attempt zero. A worker that may still
make the call has not made it yet, and no two workers work on the same
attempt, so no attempt is used twice and the counts stay within the budget.
-/

set_option autoImplicit false

namespace DocPipeline.Budget
open DocPipeline.Identifiers DocPipeline.Records DocPipeline.Database DocPipeline.Calls
open DocPipeline.Consumer DocPipeline.Routes DocPipeline.System DocPipeline.Moves
open DocPipeline.Effects DocPipeline.Answers DocPipeline.Transactions DocPipeline.Pending
open DocPipeline.Reservations DocPipeline.Stances DocPipeline.Engagement DocPipeline.Knowledge
open DocPipeline.Ledger DocPipeline.Bookkeeping DocPipeline.Exclusion DocPipeline.Publication
open LabelledRuns EffectProgram TransitionLog

abbrev Ticket := Uuid × ℕ

def callTicket : Event → Option Ticket
  | .processCalled job n => some (job,n)
  | _ => none

def publishTicket : Event → Option Ticket
  | .published job n => some (job,n)
  | _ => none

structure Spent (db : Tables) (used : List Ticket) : Prop where
  nodup : used.Nodup
  bound : ∀ x ∈ used, ∃ row, db.jobs.get x.1 = some row ∧ x.2 ≤ row.attempts

theorem Spent.length_le {db : Tables} {used : List Ticket} (h : Spent db used) (job : Uuid)
    (a b : ℕ) (hb : ∀ x ∈ used, x.1 = job → a ≤ x.2 ∧ x.2 < b) :
    used.countP (fun x => x.1 = job) ≤ b-a := by
  have hn : ((used.filter (fun x => x.1 = job)).map Prod.snd).Nodup := by
    refine List.Nodup.map_on ?_ (h.nodup.filter _)
    intro x hx y hy hxy
    have hx := (List.mem_filter.mp hx).2
    have hy := (List.mem_filter.mp hy).2
    simp only [decide_eq_true_eq] at hx hy
    exact Prod.ext (hx.trans hy.symm) hxy
  have hsub : ((used.filter (fun x => x.1 = job)).map Prod.snd).toFinset ⊆ Finset.Ico a b := by
    intro n hn
    obtain ⟨x,hx,rfl⟩ := List.mem_map.mp (List.mem_toFinset.mp hn)
    obtain ⟨hm,hj⟩ := List.mem_filter.mp hx
    simp only [decide_eq_true_eq] at hj
    exact Finset.mem_Ico.mpr (hb x hm hj)
  have hc := Finset.card_le_card hsub
  rw [List.toFinset_card_of_nodup hn, Nat.card_Ico, List.length_map] at hc
  rwa [List.countP_eq_length_filter]

theorem Spent.cons {db : Tables} {used : List Ticket} (h : Spent db used) {x : Ticket}
    (hx : x ∉ used) {row : JobRow} (hrow : db.jobs.get x.1 = some row) (hle : x.2 ≤ row.attempts) :
    Spent db (x::used) := by
  refine ⟨List.nodup_cons.mpr ⟨hx,h.nodup⟩,fun y hy => ?_⟩
  rcases List.mem_cons.mp hy with rfl | hy
  · exact ⟨row,hrow,hle⟩
  · exact h.bound y hy

section Tickets
variable {threshold : ℕ} {s s' : State} {l : Label} {f : Event → Option Ticket}

def used (f : Event → Option Ticket) (σ : World) : List Ticket := σ.history.filterMap f

theorem used_effect (hf : ∀ e, reading e ≠ none → f e = none) {σ σ' : World} {p : Proc} {c : Call}
    (he : Effect σ p c σ') : used f σ' = used f σ := by
  by_cases hc : c = .commit
  · subst hc
    cases he with
    | same => rfl
    | discard => rfl
    | commit =>
      have hnil : (((σ.writesOf p).flatMap (writeEvents p)).reverse).filterMap f = [] := by
        refine List.filterMap_eq_nil_iff.mpr (fun e he => hf e ?_)
        obtain ⟨w,-,he⟩ := List.mem_flatMap.mp (List.mem_reverse.mp he)
        cases w with
        | insertJob row =>
          obtain rfl := List.mem_singleton.mp he
          simp [reading]
        | updateJob old new =>
          obtain rfl := List.mem_singleton.mp he
          simp [reading]
        | _ => simp [writeEvents] at he
      change List.filterMap f (_ ++ σ.history) = _
      rw [List.filterMap_append, hnil]
      rfl
  · rw [used, he.history hc]
    rfl

theorem used_record (σ : World) (es : List Event) :
    used f (World.record σ es) = es.filterMap f ++ used f σ := List.filterMap_append

theorem used_idle (hf : ∀ a x, f (.received a x) = none) (hi : Idle s s') :
    used f s'.world = used f s.world := by
  obtain ⟨es,he,hes⟩ := hi.history
  rw [used, he, List.filterMap_append]
  have : es.filterMap f = [] := by
    refine List.filterMap_eq_nil_iff.mpr (fun e hm => ?_)
    obtain ⟨a,x,rfl⟩ := hes e hm
    exact hf a x
  rw [this]
  rfl

theorem callTicket_reading (e : Event) (h : reading e ≠ none) : callTicket e = none := by
  cases e <;> first | rfl | exact absurd rfl h

theorem publishTicket_reading (e : Event) (h : reading e ≠ none) : publishTicket e = none := by
  cases e <;> first | rfl | exact absurd rfl h

theorem entered_calls (p : Phase) : (entered p).filterMap callTicket =
    match p with
    | .processJob job started => [(job,started.attempts)]
    | _ => [] := by
  cases p <;> rfl

theorem performed_calls (p : Phase) : (performed p).filterMap callTicket = [] := by
  cases p <;> rfl

theorem entered_publishes (p : Phase) : (entered p).filterMap publishTicket = [] := by
  cases p <;> rfl

theorem performed_publishes (p : Phase) : (performed p).filterMap publishTicket =
    match p with
    | .enqueue job started => [(job,started.attempts)]
    | _ => [] := by
  cases p <;> rfl

/-- A step enters `process` with a claimed row, or calls it not at all. -/
theorem calls_step (hm : Move threshold s l s') :
    used callTicket s'.world = used callTicket s.world ∨
      ∃ w m job started, s.workers w = .handling m (.close (.claimed job started) none) ∧
        s'.workers w = .handling m (.processJob job started) ∧
        used callTicket s'.world = (job,started.attempts)::used callTicket s.world := by
  cases l with
  | call w o out =>
    cases hm with
    | @call _ m p c k _ _ r σ hw hv he =>
      have hσ := used_effect callTicket_reading (exec_effect he)
      have hp : (if Outcome.took out then performed p else []).filterMap callTicket = [] := by
        split
        · exact performed_calls p
        · rfl
      simp only [used_record, List.filterMap_append, hp, hσ, entered_calls, List.append_nil]
      cases hk : k r with
      | processJob job started =>
        have hsource := phase_source hv r
        rw [hk] at hsource
        obtain rfl : p = .close (.claimed job started) none := hsource
        exact Or.inr ⟨w,m,job,started,hw,by simp [State.setWorker],rfl⟩
      | _ => exact Or.inl rfl
  | serve q o out =>
    cases hm with
    | @serve _ x c k _ _ r σ hq hv he =>
      left
      have hp : (if Outcome.took out then performedStage x.stage else []).filterMap callTicket =
          [] := by
        split
        · cases x.stage <;> rfl
        · rfl
      rw [used_record, hp, used_effect callTicket_reading (exec_effect he)]
      rfl
  | _ => exact Or.inl (used_idle (fun _ _ => rfl) (move_idle hm (by simp) (by simp)))

/-- The row a claim was made on. -/
theorem Claiming.row {w : ℕ} {job : Uuid} {started : JobRow} (hs : Sound s)
    (hc : Claiming s l s' w job started) :
    ∃ old, s.world.db.jobs.get job = some old ∧ started.attempts = old.attempts+1 := by
  obtain ⟨m,hw⟩ := hc.before
  have hop := hs.opened.workers w
  rw [hw] at hop
  obtain ⟨old,hws,now,again,rfl,-,rfl⟩ := hop
  have hu : Write.updateJob old (updated .started none now again old) ∈
      s.world.writesOf (.worker w) := by simp [hws, -mem_writesOf]
  obtain ⟨hget,-⟩ := commit_jobs_updated hs.guarded.fenced hu
  exact ⟨old,hget,by simp⟩

theorem Spent.step (hs : Sound s) (hm : Move threshold s l s') {us : List Ticket}
    (h : Spent s.world.db us) : Spent s'.world.db us := by
  refine ⟨h.nodup,fun x hx => ?_⟩
  obtain ⟨row,hrow,hle⟩ := h.bound x hx
  obtain ⟨row',hrow',rfl | hr⟩ := step_evolve hs hm hrow
  · exact ⟨row',hrow',hle⟩
  · exact ⟨row',hrow',hle.trans hr.attempts_le⟩

/-- A claim that is being committed has an unused ticket. -/
theorem Spent.unused {w : ℕ} {job : Uuid} {started : JobRow} {us : List Ticket}
    (h : Spent s.world.db us) (hs : Sound s) (hc : Claiming s l s' w job started) :
    (job,started.attempts) ∉ us := by
  intro hx
  obtain ⟨row,hrow,hle⟩ := h.bound _ hx
  obtain ⟨old,hold,ha⟩ := Claiming.row hs hc
  obtain rfl := Option.some.inj (hrow.symm.trans hold)
  simp only at hle
  omega

structure Called (s : State) : Prop where
  spent : Spent s.world.db (used callTicket s.world)
  positive : ∀ x ∈ used callTicket s.world, 1 ≤ x.2
  fresh : ∀ w m job started, s.workers w = .handling m (.close (.claimed job started) none) →
    (job,started.attempts) ∉ used callTicket s.world

/-- How a worker comes to the end of its claiming session. -/
theorem closing_step (hm : Move threshold s l s') {w : ℕ} {m : Message} {job : Uuid}
    {started : JobRow} (hw : s'.workers w = .handling m (.close (.claimed job started) none)) :
    s.workers w = .handling m (.close (.claimed job started) none) ∨
      Claiming s l s' w job started := by
  have hidle : Idle s s' → s.workers w = .handling m (.close (.claimed job started) none) := by
    intro hi
    rcases hi.workers w with he | hf
    · rw [← he, hw]
    · rw [hw] at hf
      have hf : Phase.close (.claimed job started) none = start m.body := hf
      unfold start at hf
      split at hf <;> cases hf
  cases l with
  | call v o out =>
    have hm₀ := hm
    cases hm with
    | @call _ x p c k _ _ r σ hv hview he =>
      by_cases hvw : w = v
      · subst hvw
        simp only [State.setWorker, Function.update_self, Worker.handling.injEq] at hw
        obtain ⟨rfl,hk⟩ := hw
        have hsource := phase_source hview r
        rw [hk] at hsource
        obtain rfl : p = .commit (.claimed job started) := hsource
        have hclaim : (stanceOf ((s.setWorker w (.handling x (k r))).workers w)).claim =
            some (job,started) := by simp [State.setWorker, stanceOf, hk, stance, Stance.claim]
        rcases claim_step hm₀ hclaim with h | h
        · rw [hv] at h
          cases h
        · exact Or.inr h
      · simp only [State.setWorker, Function.update_of_ne hvw] at hw
        exact Or.inl hw
  | serve q o out =>
    cases hm with
    | serve hq hv he => exact Or.inl hw
  | _ => exact Or.inl (hidle (move_idle hm (by simp) (by simp)))

theorem Called.step (h : Called s) (hs : Sound s) (hm : Move threshold s l s') : Called s' := by
  have hspent := h.spent.step hs hm
  have hclose : ∀ {w m job started}, s.workers w = .handling m (.close (.claimed job started) none) →
      (stanceOf (s.workers w)).claim = some (job,started) := by
    intro w m job started hw
    rw [hw]
    rfl
  rcases calls_step hm with he | ⟨v,m,job,started,hv,hv',he⟩
  · refine ⟨by rw [he]; exact hspent,by rw [he]; exact h.positive,fun w x j a hw => ?_⟩
    rw [he]
    rcases closing_step hm hw with hw | hc
    · exact h.fresh w x j a hw
    · exact h.spent.unused hs hc
  · obtain ⟨row,hcopy⟩ := (hs.engaged.holds v).copy (hclose hv)
    obtain ⟨row',hrow',hr⟩ := step_evolve hs hm hcopy.stored
    have hcopy' := hcopy.evolve hrow' hr
    refine ⟨?_,?_,fun w x j a hw => ?_⟩
    · rw [he]
      exact hspent.cons (h.fresh v m job started hv) hrow' hcopy'.attempts
    · rw [he]
      intro x hx
      rcases List.mem_cons.mp hx with rfl | hx
      · exact hcopy.positive
      · exact h.positive x hx
    · rw [he]
      rcases closing_step hm hw with hw₀ | hc
      · intro hx
        rcases List.mem_cons.mp hx with heq | hx
        · obtain ⟨rfl,hatt⟩ := Prod.mk.inj heq
          obtain rfl := hs.engaged.single w v j a started (hclose hw₀) (hclose hv) hatt
          rw [hw] at hv'
          cases hv'
        · exact h.fresh w _ j a hw₀ hx
      · intro hx
        rcases List.mem_cons.mp hx with heq | hx
        · obtain ⟨rfl,hatt⟩ := Prod.mk.inj heq
          have := hc.later hs.engaged hs.opened hs.guarded (hclose hv)
          omega
        · exact h.spent.unused hs hc hx

def pledges : Option Request → Option Uuid
  | some ⟨_,.commitJob job⟩ => some job.id
  | some ⟨_,.enqueueJob job⟩ => some job.id
  | _ => none

theorem pledges_fresh {q : Request} (h : freshRequest q) : pledges (some q) = none := by
  obtain ⟨account,stage⟩ := q
  rcases h with h | ⟨route,h⟩
  · simp only at h
    subst h
    rfl
  · simp only at h
    subst h
    cases route <;> rfl

theorem pledges_serve {x : Stage} {account : AccountId} {c : Call} {σ σ' : World} {q : ℕ}
    {o : Oracle} {out : Outcome} {k : Except Exc c.Resp → Stage} {r : Except Exc c.Resp} {id : Uuid}
    (hv : viewStage threshold x = .calls c k) (he : exec σ (.request q) o c out = some (r,σ'))
    (hr : pledges (some ⟨account,k r⟩) = some id) :
    pledges (some ⟨account,x⟩) = some id ∨ (id ∉ σ.minted ∧ id ∈ σ'.minted) := by
  have hsource := stage_source hv r
  cases hk : k r with
  | enqueueJob job =>
    rw [hk] at hr hsource
    obtain rfl : x = .commitJob job := hsource
    exact Or.inl hr
  | commitJob job =>
    rw [hk] at hr hsource
    obtain rfl : job.id = id := Option.some.inj hr
    obtain ⟨dto,document,rfl⟩ := hsource
    cases hv
    cases r with
    | error e => cases hk
    | ok row =>
      obtain rfl := Stage.commitJob.inj hk
      obtain ⟨-,-,hfresh,-,rfl⟩ := ok_createJob he
      exact Or.inr ⟨hfresh,List.mem_cons_self⟩
  | _ =>
    rw [hk] at hr
    cases hr

/-- The message of a worker ends its claim, that of a request its pledge. -/
theorem publishes_step (hm : Move threshold s l s') :
    used publishTicket s'.world = used publishTicket s.world ∨
      (∃ w m job started, s.workers w = .handling m (.enqueue job started) ∧
        stanceOf (s'.workers w) = .away ∧
        used publishTicket s'.world = (job,started.attempts)::used publishTicket s.world) ∨
      ∃ q job, announces (s.requests q) = some job ∧ pledges (s'.requests q) = none ∧
        used publishTicket s'.world = (job.id,0)::used publishTicket s.world := by
  cases l with
  | call w o out =>
    cases hm with
    | @call _ m p c k _ _ r σ hw hv he =>
      have hσ := used_effect publishTicket_reading (exec_effect he)
      simp only [used_record, List.filterMap_append, hσ, entered_publishes, List.nil_append]
      split
      · rw [performed_publishes]
        cases p with
        | enqueue job started =>
          refine Or.inr (Or.inl ⟨w,m,job,started,hw,?_,rfl⟩)
          cases hv
          simp only [State.setWorker, Function.update_self, stanceOf]
          rcases r with e | _
          · cases e <;> rfl
          · rfl
        | _ => exact Or.inl rfl
      · exact Or.inl rfl
  | serve q o out =>
    cases hm with
    | @serve _ x c k _ _ r σ hq hv he =>
      rw [used_record, used_effect publishTicket_reading (exec_effect he)]
      split
      · obtain ⟨account,stage⟩ := x
        cases stage with
        | enqueueJob job =>
          refine Or.inr (Or.inr ⟨q,job,by rw [hq]; rfl,?_,rfl⟩)
          cases hv
          simp only [State.setStage, Function.update_self]
          cases r <;> rfl
        | _ => exact Or.inl rfl
      · exact Or.inl rfl
  | _ => exact Or.inl (used_idle (fun _ _ => rfl) (move_idle hm (by simp) (by simp)))

theorem pledges_step (hm : Move threshold s l s') {q : ℕ} {id : Uuid}
    (hq : pledges (s'.requests q) = some id) :
    pledges (s.requests q) = some id ∨
      ((∃ o out, l = .serve q o out) ∧ id ∉ s.world.minted ∧ id ∈ s'.world.minted) := by
  cases l with
  | call w o out =>
    cases hm with
    | call hw hv he => exact Or.inl hq
  | serve r o out =>
    cases hm with
    | @serve _ x c k _ _ y σ hx hv he =>
      by_cases hqr : q = r
      · subst hqr
        simp only [State.setStage, Function.update_self] at hq
        rw [hx]
        rcases pledges_serve hv he hq with h | h
        · exact Or.inl h
        · exact Or.inr ⟨⟨o,out,rfl⟩,h⟩
      · simp only [State.setStage, Function.update_of_ne hqr] at hq
        exact Or.inl hq
  | _ =>
    have hi := move_idle hm (by simp) (by simp)
    rcases hi.requests q with he | ⟨x,he,hf⟩
    · rw [he] at hq
      exact Or.inl hq
    · rw [he, pledges_fresh hf] at hq
      cases hq

theorem minted_step (hm : Move threshold s l s') {id : Uuid} (h : id ∈ s.world.minted) :
    id ∈ s'.world.minted := by
  cases l with
  | call w o out =>
    cases hm with
    | call hw hv he => exact (exec_effect he).minted id h
  | serve r o out =>
    cases hm with
    | serve hq hv he => exact (exec_effect he).minted id h
  | _ =>
    rw [(move_idle hm (by simp) (by simp)).minted]
    exact h

structure Published (s : State) : Prop where
  spent : Spent s.world.db (used publishTicket s.world)
  limit : ∀ x ∈ used publishTicket s.world, ∀ row, s.world.db.jobs.get x.1 = some row →
    x.2 = 0 ∨ x.2 < row.maxAttempts
  workers : ∀ w job started, (stanceOf (s.workers w)).claim = some (job,started) →
    (job,started.attempts) ∉ used publishTicket s.world
  requests : ∀ q id, pledges (s.requests q) = some id →
    (id,0) ∉ used publishTicket s.world ∧ id ∈ s.world.minted
  apart : ∀ q q' id, pledges (s.requests q) = some id → pledges (s.requests q') = some id → q = q'

theorem pledges_of_announces {q : Option Request} {job : JobRow} (h : announces q = some job) :
    pledges q = some job.id := by
  rcases q with _ | ⟨account,stage⟩
  · cases h
  · cases stage <;> first | cases h; rfl | cases h

theorem Published.minted (h : Published s) (hs : Sound s) {x : Ticket}
    (hx : x ∈ used publishTicket s.world) : x.1 ∈ s.world.minted := by
  obtain ⟨row,hrow,-⟩ := h.spent.bound x hx
  exact hs.guarded.fenced.jobs _ _ hrow

/-- Tickets held before a step are unused after it, unless it uses them. -/
theorem Published.keep (h : Published s) (hs : Sound s) (hm : Move threshold s l s') :
    (∀ w job started, (stanceOf (s'.workers w)).claim = some (job,started) →
      (job,started.attempts) ∉ used publishTicket s.world) ∧
    (∀ q id, pledges (s'.requests q) = some id →
      (id,0) ∉ used publishTicket s.world ∧ id ∈ s'.world.minted) ∧
    (∀ q q' id, pledges (s'.requests q) = some id → pledges (s'.requests q') = some id → q = q') := by
  refine ⟨fun w job started hc => ?_,fun q id hq => ?_,fun q q' id hq hq' => ?_⟩
  · rcases claim_step hm hc with hc | hc
    · exact h.workers w job started hc
    · exact h.spent.unused hs hc
  · rcases pledges_step hm hq with hq | ⟨-,hfresh,hnew⟩
    · exact ⟨(h.requests q id hq).1,minted_step hm (h.requests q id hq).2⟩
    · exact ⟨fun hx => hfresh (h.minted hs hx),hnew⟩
  · rcases pledges_step hm hq with hq | ⟨⟨o,out,rfl⟩,hfresh,-⟩ <;>
      rcases pledges_step hm hq' with hq' | ⟨⟨o',out',he⟩,hfresh',-⟩
    · exact h.apart q q' id hq hq'
    · exact absurd (h.requests q id hq).2 hfresh'
    · exact absurd (h.requests q' id hq').2 hfresh
    · exact (Label.serve.inj he).1

theorem limit_step (hs : Sound s) (hm : Move threshold s l s') {x : Ticket} {row : JobRow}
    (hrow : s.world.db.jobs.get x.1 = some row) (h : x.2 = 0 ∨ x.2 < row.maxAttempts) :
    ∀ row', s'.world.db.jobs.get x.1 = some row' → x.2 = 0 ∨ x.2 < row'.maxAttempts := by
  intro row' hrow'
  obtain ⟨row'',hrow'',hr⟩ := step_evolve hs hm hrow
  obtain rfl := Option.some.inj (hrow''.symm.trans hrow')
  rcases hr with rfl | hr
  · exact h
  · rw [hr.budget]
    exact h

theorem Published.limits (h : Published s) (hs : Sound s) (hm : Move threshold s l s') :
    ∀ x ∈ used publishTicket s.world, ∀ row, s'.world.db.jobs.get x.1 = some row →
      x.2 = 0 ∨ x.2 < row.maxAttempts := by
  intro x hx
  obtain ⟨row,hrow,-⟩ := h.spent.bound x hx
  exact limit_step hs hm hrow (h.limit x hx row hrow)

theorem claim_positive (hs : Sound s) (hm : Move threshold s l s') {w : ℕ} {job : Uuid}
    {started : JobRow} (hc : (stanceOf (s'.workers w)).claim = some (job,started)) :
    1 ≤ started.attempts := by
  rcases claim_step hm hc with hc | hnew
  · obtain ⟨_,hcopy⟩ := (hs.engaged.holds w).copy hc
    exact hcopy.positive
  · obtain ⟨old,-,ha⟩ := Claiming.row hs hnew
    omega

theorem Published.byWorker (h : Published s) (hs : Sound s) (hm : Move threshold s l s') {v : ℕ}
    {m : Message} {job : Uuid} {started : JobRow} (hv : s.workers v = .handling m (.enqueue job started))
    (haway : stanceOf (s'.workers v) = .away)
    (he : used publishTicket s'.world = (job,started.attempts)::used publishTicket s.world) :
    Published s' := by
  have hclaim : (stanceOf (s.workers v)).claim = some (job,started) := by rw [hv]; rfl
  have hknow := hs.informed.workers v
  rw [hv] at hknow
  obtain ⟨row,hcopy⟩ := (hs.engaged.holds v).copy hclaim
  obtain ⟨row',hrow',hr⟩ := step_evolve hs hm hcopy.stored
  obtain ⟨hworkers,hrequests,hapart⟩ := h.keep hs hm
  refine ⟨?_,?_,?_,?_,hapart⟩ <;> rw [he]
  · exact (h.spent.step hs hm).cons (h.workers v job started hclaim) hrow'
      (hcopy.evolve hrow' hr).attempts
  · intro x hx
    rcases List.mem_cons.mp hx with rfl | hx
    · refine limit_step hs hm hcopy.stored (Or.inr ?_)
      rw [hcopy.budget]
      exact hknow
    · exact h.limits hs hm x hx
  · intro w j a hc hx
    rcases List.mem_cons.mp hx with heq | hx
    · obtain ⟨rfl,hatt⟩ := Prod.mk.inj heq
      rcases claim_step hm hc with hc₀ | hnew
      · obtain rfl := hs.engaged.single w v j a started hc₀ hclaim hatt
        rw [haway] at hc
        cases hc
      · have := hnew.later hs.engaged hs.opened hs.guarded hclaim
        omega
    · exact hworkers w j a hc hx
  · intro r id hr
    refine ⟨fun hx => ?_,(hrequests r id hr).2⟩
    rcases List.mem_cons.mp hx with heq | hx
    · have := (Prod.mk.inj heq).2
      have := hcopy.positive
      omega
    · exact (hrequests r id hr).1 hx

theorem Published.byRequest (h : Published s) (hs : Sound s) (ha : Addressed s)
    (hm : Move threshold s l s') {q : ℕ} {job : JobRow} (hq : announces (s.requests q) = some job)
    (hgone : pledges (s'.requests q) = none)
    (he : used publishTicket s'.world = (job.id,0)::used publishTicket s.world) :
    Published s' := by
  have hpledge := pledges_of_announces hq
  obtain ⟨row,hrow⟩ := ha.requests q job hq
  obtain ⟨row',hrow',-⟩ := step_evolve hs hm hrow
  obtain ⟨hworkers,hrequests,hapart⟩ := h.keep hs hm
  refine ⟨?_,?_,?_,?_,hapart⟩ <;> rw [he]
  · exact (h.spent.step hs hm).cons (h.requests q job.id hpledge).1 hrow' (Nat.zero_le _)
  · intro x hx
    rcases List.mem_cons.mp hx with rfl | hx
    · exact fun _ _ => Or.inl rfl
    · exact h.limits hs hm x hx
  · intro w j a hc hx
    rcases List.mem_cons.mp hx with heq | hx
    · have := claim_positive hs hm hc
      have := (Prod.mk.inj heq).2
      omega
    · exact hworkers w j a hc hx
  · intro r id hr
    refine ⟨fun hx => ?_,(hrequests r id hr).2⟩
    rcases List.mem_cons.mp hx with heq | hx
    · obtain rfl : id = job.id := (Prod.mk.inj heq).1
      rcases pledges_step hm hr with hr₀ | ⟨-,hfresh,-⟩
      · obtain rfl := h.apart r q job.id hr₀ hpledge
        rw [hgone] at hr
        cases hr
      · exact hfresh (h.requests q job.id hpledge).2
    · exact (hrequests r id hr).1 hx

theorem Published.step (h : Published s) (hs : Sound s) (ha : Addressed s)
    (hm : Move threshold s l s') : Published s' := by
  rcases publishes_step hm with he | ⟨v,m,job,started,hv,haway,he⟩ | ⟨q,job,hq,hgone,he⟩
  · obtain ⟨hworkers,hrequests,hapart⟩ := h.keep hs hm
    refine ⟨?_,?_,?_,?_,hapart⟩ <;> rw [he]
    · exact h.spent.step hs hm
    · exact h.limits hs hm
    · exact hworkers
    · exact hrequests
  · exact h.byWorker hs hm hv haway he
  · exact h.byRequest hs ha hm hq hgone he

theorem called_of_reachable (h : Reachable (step threshold) init s) : Called s := by
  have h₀ : Called init := ⟨⟨List.nodup_nil,by simp [used, System.init]⟩,
    by simp [used, System.init],fun w m job started hw => (by cases hw)⟩
  exact h.invariant h₀ (fun s l s' hr hs hstep => hs.step (sound_of_reachable hr) (step_move hstep))

theorem published_of_reachable (h : Reachable (step threshold) init s) : Published s := by
  have h₀ : Published init := ⟨⟨List.nodup_nil,by simp [used, System.init]⟩,
    by simp [used, System.init],fun w job started hc => (by cases hc),
    fun q id hq => (by cases hq),fun q q' id hq => (by cases hq)⟩
  exact h.invariant h₀ (fun s l s' hr hs hstep =>
    hs.step (sound_of_reachable hr) (addressed_of_reachable hr) (step_move hstep))

end Tickets

section Lifecycle
variable {threshold : ℕ} {s s' : State} {t : List (State × Label)}

def calls (j : Uuid) : Event → Bool
  | .processCalled i _ => i = j
  | _ => false

def publishes (j : Uuid) : Event → Bool
  | .published i _ => i = j
  | _ => false

theorem countP_used {f : Event → Option Ticket} {q : Event → Bool} (j : Uuid)
    (hq : ∀ e, q e = (f e).any (fun x => x.1 = j)) (log : List Event) :
    log.countP q = (log.filterMap f).countP (fun x => x.1 = j) := by
  induction log with
  | nil => rfl
  | cons e log ih =>
    rw [List.countP_cons, ih, hq]
    cases hf : f e with
    | none => simp [hf]
    | some x => simp [hf, List.countP_cons]

theorem countP_calls (j : Uuid) (σ : World) :
    σ.history.countP (calls j) = (used callTicket σ).countP (fun x => x.1 = j) :=
  countP_used j (fun e => by cases e <;> rfl) _

theorem countP_publishes (j : Uuid) (σ : World) :
    σ.history.countP (publishes j) = (used publishTicket σ).countP (fun x => x.1 = j) :=
  countP_used j (fun e => by cases e <;> rfl) _

theorem attempts_le_of_inBudget {row : JobRow} (h : InBudget row) :
    row.attempts ≤ row.maxAttempts := by
  unfold InBudget at h
  split at h <;> omega

def Continues (s s' : State) : Prop :=
  ∀ j row, s.world.db.jobs.get j = some row →
    ∃ row', s'.world.db.jobs.get j = some row' ∧ row'.maxAttempts = row.maxAttempts ∧
      (row.status.active = false → row' = row)

theorem continues_trail (h : Reachable (step threshold) init s)
    (ht : Trail (step threshold) s t s') : Continues s s' := by
  refine ht.relates (fun s j row hrow => ⟨row,hrow,rfl,fun _ => rfl⟩) ?_ h
  intro a s l s' hr hc hstep j row hrow
  obtain ⟨mid,hmid,hmax,hfin⟩ := hc j row hrow
  obtain ⟨row',hrow',rfl | hrep⟩ := step_evolve (sound_of_reachable hr) (step_move hstep) hmid
  · exact ⟨row',hrow',hmax,hfin⟩
  · refine ⟨row',hrow',hrep.budget.trans hmax,fun hf => ?_⟩
    have hact := active_of_edge hrep.edge
    rw [hfin hf] at hact
    rw [hf] at hact
    cases hact

/-- The life of a job in every run: its committed statuses are a path of the
state machine, its attempts count its claims and stay within the budget, and
so do the calls of `process` and the messages published for it; a finished
row never changes again. -/
theorem job_lifecycle (h : Reachable (step threshold) init s) (j : Uuid) (row : JobRow)
    (hrow : s.world.db.jobs.get j = some row) (hmax : 1 ≤ row.maxAttempts) :
    ((trace reading j s.world.history).IsChain (fun new old => edge old new = true) ∧
      (trace reading j s.world.history).getLast? = some .queued ∧
      (trace reading j s.world.history).head? = some row.status) ∧
    row.attempts = s.world.history.countP (claims j) ∧
    InBudget row ∧
    s.world.history.countP (calls j) ≤ row.maxAttempts ∧
    s.world.history.countP (publishes j) ≤ row.maxAttempts ∧
    ∀ t s', Trail (step threshold) s t s' → ∃ row', s'.world.db.jobs.get j = some row' ∧
      row'.maxAttempts = row.maxAttempts ∧
      ((row.status = .completed ∨ row.status = .failed) → row' = row) := by
  have hb := book_of_reachable h
  have hagree := book_agrees hb
  have hbudget := book_budget hb hrow hmax
  have hcur : (trace reading j s.world.history).head? = some row.status := by
    have := hagree.current j
    rw [hrow] at this
    exact this
  refine ⟨⟨hagree.lawful.path j,?_,hcur⟩,?_,hbudget,?_,?_,fun t s' ht => ?_⟩
  · cases hlast : (trace reading j s.world.history).getLast? with
    | none =>
      rw [List.getLast?_eq_none_iff] at hlast
      rw [hlast] at hcur
      cases hcur
    | some a => rw [hagree.lawful.first j a hlast]
  · have := book_attempts hb j
    rw [hrow] at this
    exact this
  · have hc := called_of_reachable h
    rw [countP_calls]
    refine (hc.spent.length_le j 1 (row.attempts+1) (fun x hx hxj => ?_)).trans ?_
    · obtain ⟨row',hrow',hle⟩ := hc.spent.bound x hx
      rw [hxj] at hrow'
      obtain rfl := Option.some.inj (hrow.symm.trans hrow')
      exact ⟨hc.positive x hx,by omega⟩
    · have := attempts_le_of_inBudget hbudget
      omega
  · have hp := published_of_reachable h
    rw [countP_publishes]
    refine (hp.spent.length_le j 0 row.maxAttempts (fun x hx hxj => ?_)).trans (by omega)
    subst hxj
    have := hp.limit x hx row hrow
    omega
  · obtain ⟨row',hrow',hb,hf⟩ := continues_trail h ht j row hrow
    refine ⟨row',hrow',hb,fun hst => hf ?_⟩
    rcases hst with hst | hst <;> rw [hst] <;> rfl

end Lifecycle

theorem job_lifecycle_sample :
    ∃ row, (after claimRun).world.db.jobs.get 2 = some row ∧ 1 ≤ row.maxAttempts ∧
      row.attempts = (after claimRun).world.history.countP (claims 2) ∧ InBudget row := by
  have hr : Reachable (step 100) init (after claimRun) :=
    reachable_of_run claimRun (by decide +kernel)
  have hany : ((after claimRun).world.db.jobs.get 2).any (fun row => 1 ≤ row.maxAttempts) = true := by
    decide +kernel
  obtain ⟨row,hrow,hmax⟩ := (Option.any_eq_true _ _).mp hany
  simp only [decide_eq_true_eq] at hmax
  obtain ⟨-,hatt,hbudget,-⟩ := job_lifecycle hr 2 row hrow hmax
  exact ⟨row,hrow,hmax,hatt,hbudget⟩

end DocPipeline.Budget
