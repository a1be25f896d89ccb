import DocPipeline.Knowledge
import DocPipeline.Library.Logs

/-!
# The ledger

What the pipeline is for, without processes: a book of documents, jobs and
artifacts that changes by six kinds of posting, each guarded by the state of
the book alone. Every step of the system leaves the committed tables alone or
is one posting, so the tables and the history are always a book.
-/

set_option autoImplicit false

namespace DocPipeline.Ledger
open DocPipeline.Identifiers DocPipeline.Records DocPipeline.Database DocPipeline.Calls
open DocPipeline.Consumer DocPipeline.Routes DocPipeline.System DocPipeline.Effects
open DocPipeline.Moves DocPipeline.Answers DocPipeline.Transactions DocPipeline.Pending
open DocPipeline.Reservations DocPipeline.Stances DocPipeline.Engagement DocPipeline.Knowledge
open LabelledRuns EffectProgram TransitionLog

def reading : Event → Option (Entry Uuid JobStatus)
  | .created job => some ⟨job,none,.queued⟩
  | .moved _ job old new _ => some ⟨job,some old,new⟩
  | _ => none

inductive Posting (db : Tables) (log : List Event) : List Event → Tables → Prop
  | document (row : DocumentRow) (hfresh : db.documents.get row.id = none)
      (hkey : row.objectKey = rawKey row.accountId row.id) :
      Posting db log [] { db with documents := db.documents.insert row }
  | created (row : JobRow) (hfresh : db.jobs.get row.id = none)
      (hindex : db.activeJobExists row.accountId row.documentId = false)
      (howner : ∃ d, db.documents.get row.documentId = some d ∧ d.accountId = row.accountId)
      (hnew : ∃ dto id m now again, row = newJob dto id m now again) :
      Posting db log [.created row.id] { db with jobs := db.jobs.insert row }
  | claimed (w : ℕ) (old : JobRow) (now again : Time) (hrow : db.jobs.get old.id = some old)
      (hst : old.status = .queued) :
      Posting db log [.moved (.worker w) old.id .queued .started (old.attempts+1)]
        { db with jobs := db.jobs.put (updated .started none now again old) }
  | completed (w : ℕ) (old : JobRow) (now again : Time) (a : ArtifactRow)
      (hrow : db.jobs.get old.id = some old) (hst : old.status = .started)
      (ha : Produces old.id old a) :
      Posting db log [.moved (.worker w) old.id .started .completed old.attempts]
        { db with
          jobs := db.jobs.put (updated .completed none now again old)
          artifacts := db.artifacts.upsert refresh a }
  | requeued (w : ℕ) (old : JobRow) (text : String) (now again : Time)
      (hrow : db.jobs.get old.id = some old) (hst : old.status = .started)
      (hmore : old.attempts < old.maxAttempts)
      (htext : .failureHandled old.id old.attempts text ∈ log) :
      Posting db log [.moved (.worker w) old.id .started .queued old.attempts]
        { db with jobs := db.jobs.put (updated .queued (some text) now again old) }
  | failed (w : ℕ) (old : JobRow) (text : String) (now again : Time)
      (hrow : db.jobs.get old.id = some old) (hst : old.status = .started)
      (hlast : old.maxAttempts ≤ old.attempts)
      (htext : .failureHandled old.id old.attempts text ∈ log) :
      Posting db log [.moved (.worker w) old.id .started .failed old.attempts]
        { db with jobs := db.jobs.put (updated .failed (some text) now again old) }

inductive Book : Tables → List Event → Prop
  | empty : Book .empty []
  | quiet {db : Tables} {log : List Event} (h : Book db log) (es : List Event)
      (hes : ∀ e ∈ es, reading e = none) : Book db (es++log)
  | post {db db' : Tables} {log es : List Event} (h : Book db log)
      (hp : Posting db log es db') : Book db' (es++log)

section Refinement
variable {threshold : ℕ} {s s' : State} {l : Label}

def Quiet (s s' : State) : Prop :=
  s'.world.db = s.world.db ∧
    ∃ es, s'.world.history = es ++ s.world.history ∧ ∀ e ∈ es, reading e = none

def Posts (s s' : State) : Prop :=
  ∃ es, Posting s.world.db s.world.history es s'.world.db ∧
    s'.world.history = es ++ s.world.history

theorem entered_quiet (p : Phase) : ∀ e ∈ entered p, reading e = none := by
  cases p <;> simp [entered, reading]

theorem performed_quiet (p : Phase) : ∀ e ∈ performed p, reading e = none := by
  cases p <;> simp [performed, reading]

theorem performedStage_quiet (x : Stage) : ∀ e ∈ performedStage x, reading e = none := by
  cases x <;> simp [performedStage, reading]

theorem quiet_of_idle (hi : Idle s s') : Quiet s s' := by
  obtain ⟨es,he,hes⟩ := hi.history
  refine ⟨hi.db,es,he,fun e hm => ?_⟩
  obtain ⟨a,x,rfl⟩ := hes e hm
  rfl

theorem quiet_call {w : ℕ} {m : Message} {p : Phase} {c : Call} {k : Except Exc c.Resp → Phase}
    {out : Outcome} {r : Except Exc c.Resp} {σ : World}
    (hdb : σ.db = s.world.db) (hh : σ.history = s.world.history) :
    Quiet s { s.setWorker w (.handling m (k r)) with
      world := World.record σ (entered (k r) ++ if Outcome.took out then performed p else []) } := by
  refine ⟨hdb,_,by rw [World.record, hh],fun e hm => ?_⟩
  rcases List.mem_append.mp hm with hm | hm
  · exact entered_quiet _ e hm
  · split at hm
    · exact performed_quiet p e hm
    · simp at hm

theorem commit_nil {σ : World} {p : Proc} (h : σ.writesOf p = []) :
    (σ.commit p).db = σ.db ∧ (σ.commit p).history = σ.history := by
  simp [World.commit, World.discard, h]

theorem commit_update {σ : World} {p : Proc} {old new : JobRow}
    (h : σ.writesOf p = [.updateJob old new]) :
    (σ.commit p).db = { σ.db with jobs := σ.db.jobs.put new } ∧
      (σ.commit p).history =
        [.moved p new.id old.status new.status new.attempts] ++ σ.history := by
  simp [World.commit, World.discard, h, Write.apply, writeEvents]

theorem commit_complete {σ : World} {p : Proc} {old new : JobRow} {a : ArtifactRow}
    (h : σ.writesOf p = [.upsertArtifact a,.updateJob old new]) :
    (σ.commit p).db = { σ.db with
        jobs := σ.db.jobs.put new
        artifacts := σ.db.artifacts.upsert refresh a } ∧
      (σ.commit p).history =
        [.moved p new.id old.status new.status new.attempts] ++ σ.history := by
  simp [World.commit, World.discard, h, Write.apply, writeEvents]

/-- The commit of `process` completes the row that the worker claimed. -/
theorem commit_completed {σ : World} {w : ℕ} {job : Uuid} {started : JobRow}
    (hready : ∀ x ∈ σ.writesOf (.worker w), Ready σ.db x)
    (ho : opened (.commit (.processed job started)) (σ.writesOf (.worker w)))
    (hrow : σ.db.jobs.get job = some started)
    (ha : ∀ a, .upsertArtifact a ∈ σ.writesOf (.worker w) → Produces job started a) :
    started.id = job ∧ started.status = .started ∧ ∃ a now again, Produces job started a ∧
      (σ.commit (.worker w)).db = { σ.db with
        jobs := σ.db.jobs.put (updated .completed none now again started)
        artifacts := σ.db.artifacts.upsert refresh a } ∧
      (σ.commit (.worker w)).history =
        [.moved (.worker w) job .started .completed started.attempts] ++ σ.history := by
  obtain ⟨a,old,new,hws,now,again,rfl,hst,rfl⟩ := ho
  obtain ⟨hdb,hlog⟩ := commit_complete hws
  rw [hws] at hready
  obtain ⟨hold,-⟩ := hready _ (List.mem_cons_of_mem _ (List.mem_singleton_self _))
  obtain rfl := Option.some.inj (hold.symm.trans hrow)
  refine ⟨rfl,hst,a,now,again,ha a (by rw [hws]; simp),hdb,?_⟩
  rw [hlog]
  simp [hst]

/-- The commit of `_handle_failure` gives that row its status and the text of
the failure. -/
theorem commit_released {σ : World} {w : ℕ} {job : Uuid} {status : JobStatus} {started : JobRow}
    (hready : ∀ x ∈ σ.writesOf (.worker w), Ready σ.db x)
    (ho : ∃ old new, σ.writesOf (.worker w) = [.updateJob old new] ∧ Released job status old new)
    (hne : status ≠ .started) (hrow : σ.db.jobs.get job = some started)
    (hr : Reported σ (σ.writesOf (.worker w)) job started) :
    started.id = job ∧ started.status = .started ∧ ∃ text now again,
      Failed σ job started text ∧
      (σ.commit (.worker w)).db = { σ.db with
        jobs := σ.db.jobs.put (updated status (some text) now again started) } ∧
      (σ.commit (.worker w)).history =
        [.moved (.worker w) job .started status started.attempts] ++ σ.history := by
  obtain ⟨old,new,hws,rfl,hst,text,now,again,rfl⟩ := ho
  obtain ⟨hdb,hlog⟩ := commit_update hws
  obtain ⟨hold,-⟩ := hready _ (by rw [hws]; exact List.mem_singleton_self _)
  obtain rfl := Option.some.inj (hold.symm.trans hrow)
  obtain ⟨text',hf,he⟩ := hr old _ (by rw [hws]; exact List.mem_singleton_self _)
  obtain rfl : text = text' := by simpa using he
  refine ⟨rfl,hst,text,now,again,hf,hdb,?_⟩
  rw [hlog]
  simp [hst, hne]

/-- The commit of a session of the handler is one posting or changes nothing. -/
theorem commit_worker (hg : Guarded s) (ho : Opened s) (he : Engaged s) (hi : Informed s) {w : ℕ}
    {m : Message} {site : Site} (hw : s.workers w = .handling m (.commit site)) :
    ((s.world.commit (.worker w)).db = s.world.db ∧
      (s.world.commit (.worker w)).history = s.world.history) ∨
    ∃ es, Posting s.world.db s.world.history es (s.world.commit (.worker w)).db ∧
      (s.world.commit (.worker w)).history = es ++ s.world.history := by
  have hop := ho.workers w
  have hh := he.holds w
  have hk := hi.workers w
  rw [hw] at hop hh hk
  have hready := hg.fenced.isolated.ready (.worker w)
  cases site with
  | claimed job started =>
    obtain ⟨old,hws,now,again,rfl,hst,rfl⟩ := hop
    obtain ⟨hdb,hlog⟩ := commit_update hws
    obtain ⟨hrow,-⟩ := hready _ (by rw [hws]; exact List.mem_singleton_self _)
    rw [hdb, hlog]
    refine Or.inr ⟨_,.claimed w old now again hrow hst,?_⟩
    simp [hst]
  | processed job started =>
    obtain ⟨rfl,hst,a,now,again,ha,hdb,hlog⟩ := commit_completed hready hop hh.2 hk.2
    rw [hdb, hlog]
    exact Or.inr ⟨_,.completed w started now again a hh.2 hst ha,rfl⟩
  | requeued job started =>
    obtain ⟨rfl,hst,text,now,again,hf,hdb,hlog⟩ := commit_released hready hop (by simp) hh.2 hk.2
    rw [hdb, hlog]
    exact Or.inr ⟨_,.requeued w started text now again hh.2 hst hk.1 hf,rfl⟩
  | failed job started =>
    obtain ⟨rfl,hst,text,now,again,hf,hdb,hlog⟩ := commit_released hready hop (by simp) hh.2 hk.2
    rw [hdb, hlog]
    exact Or.inr ⟨_,.failed w started text now again hh.2 hst hk.1 hf,rfl⟩
  | _ => exact Or.inl (commit_nil hop)

theorem commit_request (hg : Guarded s) (ho : Opened s) (hi : Informed s) {q : ℕ} {x : Request}
    {k : Except Exc Unit → Stage} (hq : s.requests q = some x)
    (hv : viewStage threshold x.stage = .calls .commit k) :
    ((s.world.commit (.request q)).db = s.world.db ∧
      (s.world.commit (.request q)).history = s.world.history) ∨
    ∃ es, Posting s.world.db s.world.history es (s.world.commit (.request q)).db ∧
      (s.world.commit (.request q)).history = es ++ s.world.history := by
  have hop := ho.requests q
  have hk := hi.requests q
  rw [hq] at hop hk
  have hready := hg.fenced.isolated.ready (.request q)
  rcases stage_at_commit hv hop with hws | ⟨job,hx,hws⟩ | ⟨id,url,row,hx,hws,hup,-⟩
  · exact Or.inl (commit_nil hws)
  · obtain ⟨hfresh,hindex⟩ := hready (.insertJob job) (by rw [hws]; simp)
    simp only [openedRequest, KnowsRequest, hx, openedStage, KnowsStage] at hop hk
    obtain ⟨d,hd,-⟩ := hk
    refine Or.inr ⟨[.created job.id],?_,by simp [World.commit, hws, writeEvents]⟩
    simpa [World.commit, World.discard, hws, Write.apply] using
      Posting.created job hfresh hindex ⟨d,hd⟩ hop.2.2
  · have hfresh : s.world.db.documents.get row.id = none :=
      hready (.insertDocument row) (by rw [hws]; simp)
    refine Or.inr ⟨[],?_,by simp [World.commit, hws, writeEvents]⟩
    simpa [World.commit, World.discard, hws, Write.apply] using
      Posting.document row hfresh (by rw [hup.2, hup.1])

structure Sound (s : State) : Prop where
  opened : Opened s
  guarded : Guarded s
  engaged : Engaged s
  informed : Informed s

theorem sound_of_reachable (h : Reachable (step threshold) init s) : Sound s :=
  ⟨opened_of_reachable h,guarded_of_reachable h,engaged_of_reachable h,informed_of_reachable h⟩

/-- Every step of the system is a step of the ledger or leaves it alone. -/
theorem step_ledger (h : Sound s) (hm : Move threshold s l s') : Quiet s s' ∨ Posts s s' := by
  obtain ⟨ho,hg,he,hi⟩ := h
  cases l with
  | call w o out =>
    cases hm with
    | @call w m p c k o out r σ hw hv hx =>
      by_cases hc : c = .commit
      · subst hc
        obtain ⟨site,rfl⟩ := phase_at_commit hv
        have hlog : ∀ τ, World.record τ (entered (k r) ++
            if Outcome.took out then performed (.commit site) else []) = τ := by
          intro τ
          cases hv
          cases r <;> simp [World.record, entered, performed]
        obtain ⟨-,rfl⟩ | ⟨-,rfl,-⟩ := exec_commit hx
        · rw [hlog]
          rcases commit_worker hg ho he hi hw with ⟨hdb,hh⟩ | hp
          · exact Or.inl ⟨hdb,[],hh,by simp⟩
          · exact Or.inr hp
        · rw [hlog]
          exact Or.inl ⟨rfl,[],rfl,by simp⟩
      · have heff := exec_effect hx
        exact Or.inl (quiet_call (heff.db hc) (heff.history hc))
  | serve q o out =>
    cases hm with
    | @serve _ x c k _ _ r σ hq hv hx =>
      by_cases hc : c = .commit
      · subst hc
        have hlog : ∀ τ, World.record τ
            (if Outcome.took out then performedStage x.stage else []) = τ := by
          intro τ
          obtain ⟨account,stage⟩ := x
          cases stage <;> cases hv <;> simp [World.record, performedStage]
        obtain ⟨-,rfl⟩ | ⟨-,rfl,-⟩ := exec_commit hx
        · rw [hlog]
          rcases commit_request hg ho hi hq hv with ⟨hdb,hh⟩ | hp
          · exact Or.inl ⟨hdb,[],hh,by simp⟩
          · exact Or.inr hp
        · rw [hlog]
          exact Or.inl ⟨rfl,[],rfl,by simp⟩
      · have heff := exec_effect hx
        refine Or.inl ⟨heff.db hc,_,by rw [World.record, heff.history hc],fun e hm => ?_⟩
        split at hm
        · exact performedStage_quiet _ e hm
        · simp at hm
  | _ => exact Or.inl (quiet_of_idle (move_idle hm (by simp) (by simp)))

/-- The committed tables and the history of a reachable state are a book. -/
theorem book_of_reachable (h : Reachable (step threshold) init s) :
    Book s.world.db s.world.history := by
  refine h.invariant (I := fun s => Book s.world.db s.world.history) .empty
    (fun s l s' hr hs hstep => ?_)
  rcases step_ledger (sound_of_reachable hr) (step_move hstep) with ⟨hdb,es,hh,hes⟩ | ⟨es,hp,hh⟩
  · rw [hdb, hh]
    exact hs.quiet es hes
  · rw [hh]
    exact hs.post hp

end Refinement

end DocPipeline.Ledger
