import DocPipeline.ReadYourWrites

/-!
# Whom a process works for

A request works for the account it is authenticated as, a worker for the
account of the job its message names. No statement of an open transaction
checks this: the worker reads jobs without an account and artifacts have no
account column. It follows from where the statements come from, so what a
process commits is invisible to every other account.
-/

set_option autoImplicit false

namespace DocPipeline.Attribution
open DocPipeline.Identifiers DocPipeline.Records DocPipeline.Database DocPipeline.Calls
open DocPipeline.Consumer DocPipeline.Routes DocPipeline.System DocPipeline.Moves
open DocPipeline.Effects DocPipeline.Answers DocPipeline.Transactions DocPipeline.Pending
open DocPipeline.Reservations DocPipeline.Stances DocPipeline.Engagement DocPipeline.Knowledge
open DocPipeline.Ledger DocPipeline.Bookkeeping DocPipeline.Publication DocPipeline.ReadYourWrites
open LabelledRuns EffectProgram KeyedTable

def ActsFor (s : State) (account : AccountId) : Proc → Prop
  | .request r => ∃ q, s.requests r = some q ∧ q.account = account
  | .worker w => ∃ m job row, messageOf (s.workers w) = some m ∧ m.jobId = some job ∧
      s.world.db.jobs.get job = some row ∧ row.accountId = account

def accountOf (s : State) : Proc → Option AccountId
  | .request r => (s.requests r).map Request.account
  | .worker w => (((messageOf (s.workers w)).bind Message.jobId).bind s.world.db.jobs.get).map
      JobRow.accountId

theorem accountOf_iff {s : State} {account : AccountId} {p : Proc} :
    accountOf s p = some account ↔ ActsFor s account p := by
  cases p with
  | request r => simp [accountOf, ActsFor]
  | worker w =>
    simp only [accountOf, ActsFor, Option.map_eq_some_iff, Option.bind_eq_some_iff]
    constructor
    · rintro ⟨row,⟨job,⟨m,hm,hjob⟩,hrow⟩,hacc⟩
      exact ⟨m,job,row,hm,hjob,hrow,hacc⟩
    · rintro ⟨m,job,row,hm,hjob,hrow,hacc⟩
      exact ⟨row,⟨job,⟨m,hm,hjob⟩,hrow⟩,hacc⟩

instance (s : State) (account : AccountId) (p : Proc) : Decidable (ActsFor s account p) :=
  decidable_of_iff _ accountOf_iff

def WrittenFor (db : Tables) (account : AccountId) : Write → Prop
  | .insertDocument row => row.accountId = account
  | .insertJob row => row.accountId = account
  | .updateJob old _ => old.accountId = account
  | .upsertArtifact row => ∃ d, db.documents.get row.documentId = some d ∧ d.accountId = account

structure SameTables (account : AccountId) (db db' : Tables) : Prop where
  documents : ∀ id, db'.getDocument id account = db.getDocument id account
  jobs : ∀ id, db'.getJob id account = db.getJob id account
  artifacts : ∀ id, db'.listArtifacts id account = db.listArtifacts id account

section Tables
variable {account b : AccountId} {db db' db'' : Tables}

theorem SameTables.refl (db : Tables) : SameTables account db db :=
  ⟨fun _ => rfl,fun _ => rfl,fun _ => rfl⟩

theorem SameTables.trans (h : SameTables account db db') (h' : SameTables account db' db'') :
    SameTables account db db'' where
  documents id := (h'.documents id).trans (h.documents id)
  jobs id := (h'.jobs id).trans (h.jobs id)
  artifacts id := (h'.artifacts id).trans (h.artifacts id)

/-- A statement for one account is invisible to the others. -/
theorem sameTables_apply {w : Write} (hw : WrittenFor db b w) (hr : Ready db w)
    (hne : b ≠ account) : SameTables account db (Write.apply db w) := by
  cases w with
  | insertDocument row =>
    obtain rfl : row.accountId = b := hw
    have hfresh : db.documents.get row.id = none := hr
    have hget := fun id => Table.get_insert (r := row) hfresh id
    refine ⟨fun id => ?_,fun _ => rfl,fun id => List.filter_congr (fun x hx => ?_)⟩
    · simp only [Write.apply, Tables.getDocument, hget]
      split
      · rename_i he
        subst he
        simp [hfresh, hne]
      · rfl
    · simp only [Write.apply, hget]
      split
      · rename_i he
        simp [← he, hfresh, hne]
      · rfl
  | insertJob row =>
    obtain rfl : row.accountId = b := hw
    have hfresh : db.jobs.get row.id = none := hr.1
    refine ⟨fun _ => rfl,fun id => ?_,fun _ => rfl⟩
    simp only [Write.apply, Tables.getJob, Table.get_insert (r := row) hfresh]
    split
    · rename_i he
      subst he
      simp [hfresh, hne]
    · rfl
  | updateJob old new =>
    obtain rfl : old.accountId = b := hw
    refine ⟨fun _ => rfl,fun id => ?_,fun _ => rfl⟩
    simp only [Write.apply, Tables.getJob, Table.get_put, hr.2.id]
    split
    · rename_i he
      subst he
      have hnew : new.accountId ≠ account := by
        rw [hr.2.account]
        exact hne
      rw [hr.1]
      simp [Option.filter, hnew, hne]
    · rfl
  | upsertArtifact row =>
    obtain ⟨d,hd,rfl⟩ := hw
    refine ⟨fun _ => rfl,fun _ => rfl,fun id => ?_⟩
    have htest : ∀ x : ArtifactRow, x.slot = row.slot → (x.documentId = id &&
        (db.documents.get x.documentId).any (fun d => d.accountId = account)) = false := by
      intro x hx
      have hdoc : x.documentId = row.documentId := congrArg Prod.fst hx
      rw [hdoc, hd]
      simp [hne]
    simp only [Write.apply, Tables.listArtifacts, Table.upsert]
    split
    · rename_i old hold
      have hslot : (refresh old row).slot = row.slot := by
        rw [← Table.key_of_get hold]
        rfl
      exact Table.filter_put _ _ _ (fun x hx => htest x (hx.trans hslot))
    · exact Table.filter_insert _ _ _ (htest row rfl)

theorem WrittenFor.apply {v w : Write} (h : WrittenFor db b w) :
    WrittenFor (Write.apply db v) b w := by
  cases w with
  | upsertArtifact row =>
    obtain ⟨d,hd,hacc⟩ := h
    exact ⟨d,documents_kept [v] hd,hacc⟩
  | _ => exact h

/-- A transaction of one account is invisible to the others. -/
theorem sameTables_foldl (ws : List Write) (hown : ws.Pairwise Apart)
    (hready : ∀ w ∈ ws, Ready db w) (hw : ∀ w ∈ ws, ∃ b, b ≠ account ∧ WrittenFor db b w) :
    SameTables account db (ws.foldl Write.apply db) := by
  induction ws generalizing db with
  | nil => exact .refl db
  | cons w ws ih =>
    obtain ⟨hfirst,hrest⟩ := List.pairwise_cons.mp hown
    have hr := hready w List.mem_cons_self
    obtain ⟨b,hne,hb⟩ := hw w List.mem_cons_self
    refine (sameTables_apply hb hr hne).trans (ih hrest (fun v hv => ?_) (fun v hv => ?_))
    · exact ready_after hr (hready v (List.mem_cons_of_mem _ hv)) (hfirst v hv)
    · obtain ⟨c,hne',hc⟩ := hw v (List.mem_cons_of_mem _ hv)
      exact ⟨c,hne',hc.apply⟩

end Tables

def Issues (σ : World) : Call → Write → Prop
  | .updateStatus job _ _ _, .updateJob old _ => σ.db.jobs.get job = some old
  | .createJob dto, .insertJob row => row.accountId = dto.accountId
  | .createDocument dto, .insertDocument row => row.accountId = dto.accountId
  | .createArtifact dto, .upsertArtifact row => row.documentId = dto.documentId
  | _, _ => False

theorem writesOf_effect {σ σ' : World} {p : Proc} {c : Call} {w : Write} (he : Effect σ p c σ')
    (hw : w ∈ σ'.writesOf p) : w ∈ σ.writesOf p ∨ Issues σ c w := by
  cases he with
  | discard => simp [writesOf_discard_self] at hw
  | commit => simp [commit_writesOf] at hw
  | update now again hfree hrow hstatus =>
    rw [writesOf_addWrite_self] at hw
    rcases List.mem_append.mp hw with hw | hw
    · exact Or.inl hw
    · obtain rfl := List.mem_singleton.mp hw
      exact Or.inr hrow
  | insertJob id m now again =>
    rw [writesOf_minted_self] at hw
    rcases List.mem_append.mp hw with hw | hw
    · exact Or.inl hw
    · obtain rfl := List.mem_singleton.mp hw
      exact Or.inr rfl
  | insertDocument now =>
    rw [writesOf_addWrite_self] at hw
    rcases List.mem_append.mp hw with hw | hw
    · exact Or.inl hw
    · obtain rfl := List.mem_singleton.mp hw
      exact Or.inr rfl
  | upsertArtifact id now =>
    rw [writesOf_minted_self] at hw
    rcases List.mem_append.mp hw with hw | hw
    · exact Or.inl hw
    · obtain rfl := List.mem_singleton.mp hw
      exact Or.inr rfl
  | ack => exact Or.inl (by rwa [writesOf_congr (settle_inflight σ p)] at hw)
  | nack => exact Or.inl (by rwa [writesOf_congr (requeue_inflight σ p)] at hw)
  | respond y => exact Or.inl (by rwa [writesOf_congr (send_inflight σ p y)] at hw)
  | _ => exact Or.inl hw

section Steps
variable {threshold : ℕ} {s s' : State} {l : Label}

def Attributed (s : State) : Prop :=
  ∀ p, ∀ w ∈ s.world.writesOf p, ∃ b, ActsFor s b p ∧ WrittenFor s.world.db b w

/-- The statements of the handler are about the job of its message. -/
theorem issues_worker (hs : Sound s) (ha : Addressed s) {v : ℕ} {m : Message} {p : Phase} {c : Call}
    {k : Except Exc c.Resp → Phase} {w : Write} (hv : s.workers v = .handling m p)
    (hview : view p = .calls c k) (hw : Issues s.world c w) :
    ∃ b, ActsFor s b (.worker v) ∧ WrittenFor s.world.db b w := by
  have hmsg : messageOf (s.workers v) = some m := by rw [hv]; rfl
  have hupdate : ∀ job old new, phaseJob p = some job → s.world.db.jobs.get job = some old →
      ∃ b, ActsFor s b (.worker v) ∧ WrittenFor s.world.db b (.updateJob old new) := by
    intro job old new hp hold
    have hjob := ha.jobs v m job hmsg (by rw [hv]; exact hp)
    exact ⟨old.accountId,⟨m,job,old,hmsg,hjob,hold,rfl⟩,rfl⟩
  cases p with
  | claim job =>
    cases hview
    cases w with
    | updateJob old new => exact hupdate job old new rfl hw
    | _ => cases hw
  | processComplete job started row document markdown =>
    cases hview
    cases w with
    | updateJob old new => exact hupdate job old new rfl hw
    | _ => cases hw
  | requeue job started e | fail job started e =>
    cases hview
    cases w with
    | updateJob old new => exact hupdate job old new rfl hw
    | _ => cases hw
  | processArtifact job started row document markdown =>
    cases hview
    have hk := hs.informed.workers v
    have hh := hs.engaged.holds v
    rw [hv] at hk hh
    obtain ⟨rfl,hf,-⟩ := hk
    have hjob := ha.jobs v m job hmsg (by rw [hv]; rfl)
    cases w with
    | upsertArtifact a =>
      have hdoc : a.documentId = row.documentId := hw
      exact ⟨row.accountId,⟨m,job,row,hmsg,hjob,hh.2,rfl⟩,document,by rw [hdoc]; exact hf.1,hf.2⟩
    | _ => cases hw
  | returned => cases hview
  | raised d e => cases hview
  | _ =>
    cases hview
    cases w <;> cases hw

theorem issues_request (hs : Sound s) {q : ℕ} {x : Request} {c : Call}
    {k : Except Exc c.Resp → Stage} {w : Write} (hq : s.requests q = some x)
    (hview : viewStage threshold x.stage = .calls c k) (hw : Issues s.world c w) :
    ∃ b, ActsFor s b (.request q) ∧ WrittenFor s.world.db b w := by
  have hop := hs.opened.requests q
  rw [hq] at hop
  refine ⟨x.account,⟨x,hq,rfl⟩,?_⟩
  obtain ⟨account,stage⟩ := x
  cases stage with
  | insertDocument a id =>
    cases hview
    obtain ⟨-,rfl⟩ := hop
    cases w with
    | insertDocument row => exact hw
    | _ => cases hw
  | insertJob dto document =>
    cases hview
    obtain ⟨-,rfl⟩ := hop
    cases w with
    | insertJob row => exact hw
    | _ => cases hw
  | finished => cases hview
  | crashed e => cases hview
  | _ =>
    cases hview
    cases w <;> cases hw

/-- The statements after a step are for the account their process worked for
before it. -/
theorem written_step (h : Attributed s) (hs : Sound s) (ha : Addressed s)
    (hm : Move threshold s l s') {p : Proc} {w : Write} (hw : w ∈ s'.world.writesOf p) :
    ∃ b, ActsFor s b p ∧ WrittenFor s.world.db b w := by
  by_cases hcall : ∃ v o out, l = .call v o out
  · obtain ⟨v,o,out,rfl⟩ := hcall
    cases hm with
    | call hv hview he =>
      by_cases hp : p = .worker v
      · subst hp
        rcases writesOf_effect (exec_effect he) hw with hw | hw
        · exact h _ w hw
        · exact issues_worker hs ha hv hview hw
      · refine h p w ?_
        rw [← (exec_effect he).writesOf_other hp]
        exact hw
  by_cases hserve : ∃ q o out, l = .serve q o out
  · obtain ⟨q,o,out,rfl⟩ := hserve
    cases hm with
    | serve hq hview he =>
      by_cases hp : p = .request q
      · subst hp
        rcases writesOf_effect (exec_effect he) hw with hw | hw
        · exact h _ w hw
        · exact issues_request hs hq hview hw
      · refine h p w ?_
        rw [← (exec_effect he).writesOf_other hp]
        exact hw
  have hi := move_idle hm (fun v o out hl => hcall ⟨v,o,out,hl⟩)
    (fun q o out hl => hserve ⟨q,o,out,hl⟩)
  rcases hi.writes p with he | he
  · exact h p w (by rwa [he] at hw)
  · simp [he] at hw

/-- A worker with open statements keeps its message. -/
theorem message_kept (ho : Opened s) (hm : Move threshold s l s') {v : ℕ} {w : Write}
    (hw : w ∈ s'.world.writesOf (.worker v)) :
    messageOf (s'.workers v) = messageOf (s.workers v) := by
  by_cases hat : workerAt l = some v
  · have hnone : ∀ x, s.workers v = x → openedWorker x = openedWorker .idle →
        w ∉ s.world.writesOf (.worker v) := by
      intro x hx hop hmem
      have hws := ho.workers v
      rw [hx, hop] at hws
      rw [show s.world.writesOf (.worker v) = [] from hws] at hmem
      cases hmem
    cases hm with
    | deliver hv hu hi =>
      obtain rfl := Option.some.inj hat
      exact absurd hw (hnone _ hv rfl)
    | begin hv =>
      obtain rfl := Option.some.inj hat
      rw [hv]
      simp [State.setWorker, messageOf]
    | call hv hview he =>
      obtain rfl := Option.some.inj hat
      rw [hv]
      simp [State.setWorker, messageOf]
    | loop hv =>
      obtain rfl := Option.some.inj hat
      exact absurd hw (hnone _ hv rfl)
    | stop | die =>
      obtain rfl := Option.some.inj hat
      rw [endWorker_writesOf, writesOf_discard_self] at hw
      cases hw
    | lose hv hu => rfl
    | _ => cases hat
  · rw [(frame_worker hm hat).1]

theorem ActsFor.step (hs : Sound s) (hm : Move threshold s l s') {p : Proc} {b : AccountId}
    {w : Write} (h : ActsFor s b p) (hw : w ∈ s'.world.writesOf p) : ActsFor s' b p := by
  cases p with
  | request r =>
    obtain ⟨q,hq,hacc⟩ := h
    obtain ⟨q',hq',hacc'⟩ := account_step hm hq
    exact ⟨q',hq',hacc'.trans hacc⟩
  | worker v =>
    obtain ⟨m,job,row,hmsg,hjob,hrow,hacc⟩ := h
    obtain ⟨row',hrow',he⟩ := step_evolve hs hm hrow
    refine ⟨m,job,row',by rw [message_kept hs.opened hm hw, hmsg],hjob,hrow',?_⟩
    rcases he with rfl | hrep
    · exact hacc
    · exact hrep.account.trans hacc

theorem WrittenFor.step (hm : Move threshold s l s') {b : AccountId} {w : Write}
    (h : WrittenFor s.world.db b w) : WrittenFor s'.world.db b w := by
  cases w with
  | upsertArtifact row =>
    obtain ⟨d,hd,hacc⟩ := h
    exact ⟨d,(move_grows hm).documents _ _ hd,hacc⟩
  | _ => exact h

theorem attributed_of_reachable (h : Reachable (step threshold) init s) : Attributed s := by
  refine h.invariant ?_ (fun s l s' hr hatt hstep p w hw => ?_)
  · intro p w hw
    cases hw
  · have hm := step_move hstep
    have hs := sound_of_reachable hr
    obtain ⟨b,hb,hwb⟩ := written_step hatt hs (addressed_of_reachable hr) hm hw
    exact ⟨b,hb.step hs hm hw,hwb.step hm⟩

def actor : Label → Option Proc
  | .call w _ _ | .stop w | .die w => some (.worker w)
  | .serve r _ _ | .abort r => some (.request r)
  | _ => none

theorem writesOf_step_other (hm : Move threshold s l s') {p : Proc} (hp : actor l ≠ some p) :
    s'.world.writesOf p = s.world.writesOf p := by
  have hne : ∀ {q : Proc}, actor l = some q → p ≠ q := by
    rintro q hq rfl
    exact hp hq
  cases hm with
  | call hv hview he => exact (exec_effect he).writesOf_other (hne rfl)
  | serve hq hview he => exact (exec_effect he).writesOf_other (hne rfl)
  | stop hv =>
    rw [endWorker_writesOf, writesOf_discard, if_neg (hne rfl)]
  | die hv =>
    rw [endWorker_writesOf, writesOf_discard, if_neg (hne rfl)]
  | lose hv hu => exact writesOf_congr (requeue_inflight _ _) p
  | abort hq => rw [writesOf_discard, if_neg (hne rfl)]
  | _ => rfl

theorem held_iff {σ : World} {p : Proc} {uses : Write → Bool} :
    σ.held p uses = true ↔ ∃ q, q ≠ p ∧ ∃ w ∈ σ.writesOf q, uses w = true := by
  simp only [World.held, List.any_eq_true, Bool.and_eq_true, decide_eq_true_eq, mem_writesOf]
  constructor
  · rintro ⟨⟨q,w⟩,hmem,hne,hu⟩
    exact ⟨q,hne,w,hmem,hu⟩
  · rintro ⟨q,hne,w,hmem,hu⟩
    exact ⟨⟨q,w⟩,hmem,hne,hu⟩

theorem not_usesIndexEntry {db : Tables} {account b : AccountId} {d : Uuid} {w : Write}
    (hw : WrittenFor db b w) (hne : b ≠ account) : usesIndexEntry account d w = false := by
  cases w with
  | insertJob row =>
    obtain rfl : row.accountId = b := hw
    simp [usesIndexEntry, hne]
  | updateJob old new =>
    obtain rfl : old.accountId = b := hw
    simp [usesIndexEntry, hne]
  | _ => rfl

/-- The steps of other processes hold none of the index entries of `a`. -/
theorem held_step (h : Attributed s) (hs : Sound s) (had : Addressed s)
    (hm : Move threshold s l s') {a : AccountId} (hl : ∀ p, actor l = some p → ¬ ActsFor s a p)
    (p : Proc) (d : Uuid) :
    s'.world.held p (usesIndexEntry a d) = s.world.held p (usesIndexEntry a d) := by
  have hsame : ∀ q w, usesIndexEntry a d w = true →
      (w ∈ s'.world.writesOf q ↔ w ∈ s.world.writesOf q) := by
    intro q w hu
    by_cases hq : actor l = some q
    · have hforeign : ∀ b, ActsFor s b q → WrittenFor s.world.db b w → False := by
        intro b hb hwb
        have hne : b ≠ a := by
          rintro rfl
          exact hl q hq hb
        rw [not_usesIndexEntry hwb hne] at hu
        cases hu
      constructor
      · intro hw
        obtain ⟨b,hb,hwb⟩ := written_step h hs had hm hw
        exact (hforeign b hb hwb).elim
      · intro hw
        obtain ⟨b,hb,hwb⟩ := h q w hw
        exact (hforeign b hb hwb).elim
    · rw [writesOf_step_other hm hq]
  rw [Bool.eq_iff_iff, held_iff, held_iff]
  constructor
  · rintro ⟨q,hne,w,hw,hu⟩
    exact ⟨q,hne,w,(hsame q w hu).mp hw,hu⟩
  · rintro ⟨q,hne,w,hw,hu⟩
    exact ⟨q,hne,w,(hsame q w hu).mpr hw,hu⟩

theorem sameTables_commit (h : Attributed s) (hs : Sound s) {p : Proc} {a : AccountId}
    (hp : ¬ ActsFor s a p) : SameTables a s.world.db (s.world.commit p).db := by
  have hiso := hs.guarded.fenced.isolated
  refine sameTables_foldl _ (hiso.own p) (hiso.ready p) (fun w hw => ?_)
  obtain ⟨b,hb,hwb⟩ := h p w hw
  refine ⟨b,?_,hwb⟩
  rintro rfl
  exact hp hb

theorem sameTables_effect (h : Attributed s) (hs : Sound s) {p : Proc} {a : AccountId} {c : Call}
    {σ : World} (he : Effect s.world p c σ) (hp : ¬ ActsFor s a p) :
    SameTables a s.world.db σ.db := by
  by_cases hc : c = .commit
  · subst hc
    cases he with
    | same => exact .refl _
    | discard => exact .refl _
    | commit => exact sameTables_commit h hs hp
  · rw [he.db hc]
    exact .refl _

theorem sameTables_step (h : Attributed s) (hs : Sound s) (hm : Move threshold s l s')
    {a : AccountId} (hl : ∀ p, actor l = some p → ¬ ActsFor s a p) :
    SameTables a s.world.db s'.world.db := by
  cases hm with
  | call hv hview he =>
    have hsame := sameTables_effect h hs (exec_effect he) (hl _ rfl)
    exact hsame
  | serve hq hview he =>
    have hsame := sameTables_effect h hs (exec_effect he) (hl _ rfl)
    exact hsame
  | stop hv =>
    rw [State.endWorker, requeue_db]
    exact .refl _
  | die hv =>
    rw [State.endWorker, requeue_db]
    exact .refl _
  | lose hv hu =>
    rw [requeue_db]
    exact .refl _
  | _ => exact .refl _

end Steps

end DocPipeline.Attribution
