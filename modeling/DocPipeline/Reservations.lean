import DocPipeline.Pending

/-!
# Transactions and identifiers kept apart

Every state the system reaches has isolated transactions: the calls that the
code makes respect the locks, and each new identifier is used once. The
identifier of a new document is minted one call before it is inserted, so
it is reserved in between.
-/

set_option autoImplicit false

namespace DocPipeline.Reservations
open DocPipeline.Identifiers DocPipeline.Records DocPipeline.Database DocPipeline.Calls
open DocPipeline.Consumer DocPipeline.Routes DocPipeline.System DocPipeline.Effects
open DocPipeline.Moves DocPipeline.Answers DocPipeline.Transactions DocPipeline.Pending
open KeyedTable LabelledRuns EffectProgram OpenTransactions

structure Fenced (σ : World) : Prop where
  isolated : Isolated rules σ.db σ.writesOf
  documents : ∀ id row, σ.db.documents.get id = some row → id ∈ σ.minted
  jobs : ∀ id row, σ.db.jobs.get id = some row → id ∈ σ.minted
  pending : ∀ p, ∀ w ∈ σ.writesOf p, ∀ id ∈ newIds w, id ∈ σ.minted

section Worlds
variable {σ σ' : World} {p : Proc} {c : Call}

theorem commit_writesOf (q : Proc) :
    (σ.commit p).writesOf q = if q = p then [] else σ.writesOf q :=
  writesOf_discard q

theorem Fenced.congr (h : Fenced σ) (hdb : σ'.db = σ.db) (hm : ∀ id ∈ σ.minted, id ∈ σ'.minted)
    (hw : ∀ q, σ'.writesOf q = σ.writesOf q ∨ σ'.writesOf q = []) : Fenced σ' := by
  constructor
  · rw [hdb]
    exact h.isolated.shrink hw
  · intro id row hr
    rw [hdb] at hr
    exact hm id (h.documents id row hr)
  · intro id row hr
    rw [hdb] at hr
    exact hm id (h.jobs id row hr)
  · intro q w hq id hid
    rcases hw q with he | he
    · rw [he] at hq
      exact hm id (h.pending q w hq id hid)
    · simp [he] at hq

theorem Fenced.discard (h : Fenced σ) (p : Proc) : Fenced (σ.discard p) := by
  refine h.congr rfl (fun _ hid => hid) (fun q => ?_)
  rw [writesOf_discard]
  split
  · exact Or.inr rfl
  · exact Or.inl rfl

theorem Fenced.add (h : Fenced σ) {w : Write} {ids : List Uuid} (hw : Ready σ.db w)
    (ha : ∀ q, ∀ v ∈ σ.writesOf q, Apart v w) (hm : ∀ id ∈ σ.minted, id ∈ ids)
    (hid : ∀ id ∈ newIds w, id ∈ ids) : Fenced { σ.addWrite p w with minted := ids } := by
  have hwrites : ∀ q, World.writesOf { σ.addWrite p w with minted := ids } q =
      if q = p then σ.writesOf p ++ [w] else σ.writesOf q := fun q => writesOf_addWrite w q
  refine ⟨h.isolated.add p hwrites hw ha,fun id row hr => hm id (h.documents id row hr),
    fun id row hr => hm id (h.jobs id row hr),?_⟩
  intro q v hv id hvid
  rw [hwrites q] at hv
  split at hv
  · rcases List.mem_append.mp hv with hv | hv
    · exact hm id (h.pending p v hv id hvid)
    · obtain rfl := List.mem_singleton.mp hv
      exact hid id hvid
  · exact hm id (h.pending q v hv id hvid)

theorem Fenced.commit (h : Fenced σ) (p : Proc) : Fenced (σ.commit p) := by
  refine ⟨h.isolated.commit p commit_writesOf,?_,?_,?_⟩
  · intro id row hr
    rcases documents_foldl _ hr with hd | ⟨hw,rfl⟩
    · exact h.documents id row hd
    · exact h.pending p _ hw _ (by simp [newIds])
  · intro id row hr
    rcases jobs_foldl _ hr with ⟨old,hr⟩ | ⟨x,hx,rfl⟩
    · exact h.jobs id old hr
    · exact h.pending p _ hx _ (by simp [newIds])
  · intro q w hw id hid
    rw [commit_writesOf] at hw
    split at hw
    · simp at hw
    · exact h.pending q w hw id hid

def Proper (σ : World) (p : Proc) : Call → Prop
  | .updateStatus _ status expected _ => edge expected status = true ∧
      ∀ v ∈ σ.writesOf p, ∃ a, v = .upsertArtifact a
  | .createJob _ => σ.writesOf p = []
  | .createDocument dto => dto.id ∈ σ.minted ∧ σ.db.documents.get dto.id = none ∧
      ∀ q row, .insertDocument row ∈ σ.writesOf q → row.id ≠ dto.id
  | _ => True

theorem apart_update {job : Uuid} {old new : JobRow} (hid : old.id = job)
    (hown : ∀ v ∈ σ.writesOf p, ∃ a, v = .upsertArtifact a)
    (hfree : σ.held p (updatesJob job) = false) :
    ∀ q, ∀ v ∈ σ.writesOf q, Apart v (.updateJob old new) := by
  intro q v hv
  by_cases hq : q = p
  · subst hq
    obtain ⟨a,rfl⟩ := hown v hv
    trivial
  · have hu := held_false hfree hq hv
    cases v with
    | updateJob old' new' =>
      intro he
      simp [updatesJob, he, hid] at hu
    | _ => trivial

theorem apart_insertJob (h : Fenced σ) {row : JobRow} (hown : σ.writesOf p = [])
    (hfree : σ.held p (usesIndexEntry row.accountId row.documentId) = false)
    (hfresh : row.id ∉ σ.minted) : ∀ q, ∀ v ∈ σ.writesOf q, Apart v (.insertJob row) := by
  intro q v hv
  by_cases hq : q = p
  · subst hq
    simp [hown] at hv
  · have hu := held_false hfree hq hv
    cases v with
    | insertJob row' =>
      refine ⟨fun he => hfresh ?_,fun ⟨ha,hd⟩ => ?_⟩
      · rw [← he]
        exact h.pending q _ hv _ (by simp [newIds])
      · simp [usesIndexEntry, ha, hd] at hu
    | _ => trivial

theorem Fenced.effect (h : Fenced σ) (he : Effect σ p c σ') (hc : Proper σ p c) : Fenced σ' := by
  cases he with
  | same => exact h
  | discard => exact h.discard p
  | commit => exact h.commit p
  | @update job status expected err old now again hfree hrow hstatus =>
    subst hstatus
    have hid := Table.key_of_get hrow
    refine h.add ⟨?_,replaces_updated err now again hc.1⟩ (apart_update hid hc.2 hfree)
      (fun _ hid => hid) (by simp [newIds])
    rw [hid]
    exact hrow
  | @insertJob dto id m now again hfree hindex hfresh =>
    refine h.add ⟨?_,hindex⟩ (apart_insertJob h hc hfree hfresh)
      (fun _ hid => List.mem_cons_of_mem _ hid) (by simp [newIds, newJob])
    cases hg : σ.db.jobs.get id with
    | none => exact hg
    | some row => exact absurd (h.jobs id row hg) hfresh
  | @insertDocument dto now =>
    obtain ⟨hm,hnone,hother⟩ := hc
    refine h.add hnone ?_ (fun _ hid => hid) (by simpa [newIds, newDocument] using hm)
    intro q v hv
    cases v with
    | insertDocument row => exact hother q row hv
    | _ => trivial
  | upsertArtifact id now hfresh =>
    refine h.add trivial ?_ (fun _ hid => List.mem_cons_of_mem _ hid) (by simp [newIds])
    intro q v hv
    cases v <;> trivial
  | putObject => exact h.congr rfl (fun _ hid => hid) (fun q => Or.inl (writesOf_congr rfl q))
  | enqueue => exact h.congr rfl (fun _ hid => hid) (fun q => Or.inl (writesOf_congr rfl q))
  | ack =>
    exact h.congr (settle_db σ p) (by simp) (fun q => Or.inl (writesOf_congr (settle_inflight σ p) q))
  | nack =>
    exact h.congr (requeue_db σ p) (by simp) (fun q => Or.inl (writesOf_congr (requeue_inflight σ p) q))
  | uuid4 id hfresh =>
    exact h.congr rfl (fun _ hid => List.mem_cons_of_mem _ hid)
      (fun q => Or.inl (writesOf_congr rfl q))
  | respond response =>
    exact h.congr (send_db σ p response) (by simp)
      (fun q => Or.inl (writesOf_congr (send_inflight σ p response) q))

structure Reserved (σ : World) (id : Uuid) : Prop where
  minted : id ∈ σ.minted
  fresh : σ.db.documents.get id = none
  pending : ∀ q row, .insertDocument row ∈ σ.writesOf q → row.id ≠ id

theorem Reserved.congr {id : Uuid} (h : Reserved σ id) (hdb : σ'.db = σ.db)
    (hm : id ∈ σ'.minted) (hw : ∀ q row, .insertDocument row ∈ σ'.writesOf q →
      .insertDocument row ∈ σ.writesOf q) : Reserved σ' id :=
  ⟨hm,by rw [hdb]; exact h.fresh,fun q row hq => h.pending q row (hw q row hq)⟩

theorem Reserved.effect {id : Uuid} (h : Reserved σ id) (he : Effect σ p c σ')
    (hc : ∀ dto, c = .createDocument dto → dto.id ≠ id) : Reserved σ' id := by
  have hm := he.minted id h.minted
  have hother : ∀ q row, q ≠ p → .insertDocument row ∈ σ'.writesOf q → row.id ≠ id := by
    intro q row hq hw
    rw [he.writesOf_other hq] at hw
    exact h.pending q row hw
  have hown : ∀ row, .insertDocument row ∈ σ'.writesOf p → row.id ≠ id := by
    intro row hw
    cases he with
    | discard => simp [writesOf_discard_self] at hw
    | commit => simp [commit_writesOf] at hw
    | update =>
      rw [writesOf_addWrite_self] at hw
      exact h.pending p row (by simpa using hw)
    | insertJob i m now again =>
      rw [writesOf_minted_self] at hw
      exact h.pending p row (by simpa using hw)
    | upsertArtifact i now =>
      rw [writesOf_minted_self] at hw
      exact h.pending p row (by simpa using hw)
    | insertDocument now =>
      rw [writesOf_addWrite_self] at hw
      rcases List.mem_append.mp hw with hw | hw
      · exact h.pending p row hw
      · obtain rfl := Write.insertDocument.inj (List.mem_singleton.mp hw)
        exact hc _ rfl
    | ack => exact h.pending p row (by rwa [writesOf_congr (settle_inflight σ p)] at hw)
    | nack => exact h.pending p row (by rwa [writesOf_congr (requeue_inflight σ p)] at hw)
    | respond x => exact h.pending p row (by rwa [writesOf_congr (send_inflight σ p x)] at hw)
    | _ => exact h.pending p row hw
  refine ⟨hm,?_,fun q row hw => ?_⟩
  · by_cases hcommit : c = .commit
    · subst hcommit
      cases he with
      | same => exact h.fresh
      | discard => exact h.fresh
      | commit =>
        cases hg : (σ.commit p).db.documents.get id with
        | none => rfl
        | some row =>
          rcases documents_foldl _ hg with hd | ⟨hw,hid⟩
          · rw [h.fresh] at hd
            cases hd
          · exact absurd hid (h.pending p row hw)
    · rw [he.db hcommit]
      exact h.fresh
  · by_cases hq : q = p
    · subst hq
      exact hown row hw
    · exact hother q row hq hw

end Worlds

section Steps
variable {threshold : ℕ} {s s' : State} {l : Label}

def reserves : Option Request → Option Uuid
  | some ⟨_,.insertDocument _ id⟩ => some id
  | _ => none

structure Guarded (s : State) : Prop where
  fenced : Fenced s.world
  reserved : ∀ r id, reserves (s.requests r) = some id → Reserved s.world id
  apart : ∀ r r' id, reserves (s.requests r) = some id → reserves (s.requests r') = some id →
    r = r'

theorem reserves_fresh {q : Request} (h : freshRequest q) : reserves (some q) = none := by
  obtain ⟨account,stage⟩ := q
  rcases h with h | ⟨route,h⟩
  · simp only at h
    subst h
    rfl
  · simp only at h
    subst h
    cases route <;> rfl

theorem proper_view {p : Phase} {c : Call} {k : Except Exc c.Resp → Phase} {σ : World} {w : ℕ}
    (hv : view p = .calls c k) (ho : opened p (σ.writesOf (.worker w))) :
    Proper σ (.worker w) c := by
  cases p with
  | claim job =>
    cases hv
    exact ⟨rfl,by rw [show σ.writesOf _ = [] from ho]; simp⟩
  | requeue job started e =>
    cases hv
    exact ⟨rfl,by rw [show σ.writesOf _ = [] from ho]; simp⟩
  | fail job started e =>
    cases hv
    exact ⟨rfl,by rw [show σ.writesOf _ = [] from ho]; simp⟩
  | processComplete job started row document markdown =>
    cases hv
    obtain ⟨a,ha⟩ := ho
    exact ⟨rfl,by rw [ha]; simp⟩
  | returned => cases hv
  | raised d e => cases hv
  | _ =>
    cases hv
    trivial

theorem proper_viewStage {x : Stage} {account : AccountId} {c : Call}
    {k : Except Exc c.Resp → Stage} {σ : World} {r : ℕ}
    (hv : viewStage threshold x = .calls c k)
    (ho : openedStage account x (σ.writesOf (.request r)))
    (hr : ∀ id, reserves (some ⟨account,x⟩) = some id → Reserved σ id) :
    Proper σ (.request r) c := by
  cases x with
  | insertDocument a id =>
    cases hv
    have h := hr id rfl
    exact ⟨h.minted,h.fresh,h.pending⟩
  | insertJob dto document =>
    cases hv
    exact ho.1
  | finished => cases hv
  | crashed e => cases hv
  | _ =>
    cases hv
    trivial

theorem Guarded.init : Guarded init where
  fenced := by
    refine ⟨⟨?_,?_,?_⟩,?_,?_,?_⟩ <;>
      simp [System.init, World.writesOf, Tables.empty, Table.get_empty]
  reserved r id h := by cases h
  apart r r' id h := by cases h

theorem Guarded.idle (h : Guarded s) (hi : Idle s s') : Guarded s' := by
  have hres : ∀ r id, reserves (s'.requests r) = some id → reserves (s.requests r) = some id := by
    intro r id hr
    rcases hi.requests r with he | ⟨q,he,hf⟩
    · rwa [he] at hr
    · rw [he, reserves_fresh hf] at hr
      cases hr
  refine ⟨h.fenced.congr hi.db (by simp [hi.minted]) hi.writes,fun r id hr => ?_,
    fun r r' id hr hr' => h.apart r r' id (hres r id hr) (hres r' id hr')⟩
  have h₀ := h.reserved r id (hres r id hr)
  refine h₀.congr hi.db (by rw [hi.minted]; exact h₀.minted) (fun q row hq => ?_)
  rcases hi.writes q with he | he
  · rwa [he] at hq
  · simp [he] at hq

theorem Fenced.record {σ : World} (h : Fenced σ) (es : List Event) : Fenced (World.record σ es) :=
  h.congr rfl (fun _ hid => hid) (fun q => Or.inl (writesOf_congr rfl q))

theorem Reserved.record {σ : World} {id : Uuid} (h : Reserved σ id) (es : List Event) :
    Reserved (World.record σ es) id :=
  h.congr rfl h.minted (fun _ _ hw => hw)

theorem view_createDocument {p : Phase} {c : Call} {k : Except Exc c.Resp → Phase}
    (hv : view p = .calls c k) (dto : CreateDocumentDTO) : c ≠ .createDocument dto := by
  cases p <;> cases hv <;> simp

/-- A request reserves an identifier by minting it. -/
theorem reserves_serve {x : Stage} {account : AccountId} {c : Call} {σ σ' : World} {q : ℕ}
    {o : Oracle} {out : Outcome} {k : Except Exc c.Resp → Stage} {r : Except Exc c.Resp} {id : Uuid}
    (hv : viewStage threshold x = .calls c k) (he : exec σ (.request q) o c out = some (r,σ'))
    (hr : reserves (some ⟨account,k r⟩) = some id) :
    id ∉ σ.minted ∧ σ' = { σ with minted := id::σ.minted } := by
  have hsource := stage_source hv r
  cases hk : k r with
  | insertDocument a i =>
    rw [hk] at hr hsource
    obtain rfl : i = id := Option.some.inj hr
    obtain rfl : x = .mintDocument a := hsource
    cases hv
    cases r with
    | error e => cases hk
    | ok y =>
      obtain ⟨-,rfl⟩ := Stage.insertDocument.inj hk
      exact ok_uuid4 he
  | _ =>
    rw [hk] at hr
    cases hr

theorem Guarded.call (h : Guarded s) (ho : Opened s) {w : ℕ} {o : Oracle} {out : Outcome}
    (hm : Move threshold s (.call w o out) s') : Guarded s' := by
  cases hm with
  | @call w m p c k o out r σ hw hv he =>
    have hop := ho.workers w
    rw [hw] at hop
    refine ⟨(h.fenced.effect (exec_effect he) (proper_view hv hop)).record _,fun q id hq => ?_,
      h.apart⟩
    refine ((h.reserved q id hq).effect (exec_effect he) (fun dto hd => ?_)).record _
    exact absurd hd (view_createDocument hv dto)

theorem Guarded.serve (h : Guarded s) (ho : Opened s) {q : ℕ} {o : Oracle} {out : Outcome}
    (hm : Move threshold s (.serve q o out) s') : Guarded s' := by
  cases hm with
  | @serve q x c k o out r σ hq hv he =>
    have hop := ho.requests q
    rw [hq] at hop
    have hfresh := fun id => @reserves_serve threshold x.stage x.account c s.world σ q o out k r
      id hv he
    have hself : ∀ id, reserves (some x) = some id → Reserved s.world id := by
      intro id hid
      exact h.reserved q id (by rw [hq]; exact hid)
    have hothers : ∀ v id, v ≠ q → reserves (s.requests v) = some id → Reserved σ id := by
      intro v id hvq hid
      refine (h.reserved v id hid).effect (exec_effect he) (fun dto hd hdid => hvq ?_)
      refine h.apart v q id hid ?_
      rw [hq]
      obtain ⟨account,stage⟩ := x
      cases stage <;> cases hv <;> cases hd
      exact congrArg some hdid
    have hnew : ∀ v id, v ≠ q → reserves (s.requests v) = some id →
        reserves (some ⟨x.account,k r⟩) ≠ some id := by
      intro v id hvq hid hr
      exact (hfresh id hr).1 (h.reserved v id hid).minted
    refine ⟨(h.fenced.effect (exec_effect he) (proper_viewStage hv hop hself)).record _,?_,?_⟩
    · intro v id hid
      by_cases hvq : v = q
      · subst hvq
        simp only [State.setStage, Function.update_self] at hid
        obtain ⟨hm,rfl⟩ := hfresh id hid
        have hf := h.fenced
        refine Reserved.record ⟨List.mem_cons_self,?_,fun p row hp hrow => hm ?_⟩ _
        · cases hg : s.world.db.documents.get id with
          | none => rfl
          | some row => exact absurd (hf.documents id row hg) hm
        · rw [← hrow]
          exact hf.pending p _ hp _ (by simp [newIds])
      · simp only [State.setStage, Function.update_of_ne hvq] at hid
        exact (hothers v id hvq hid).record _
    · intro v v' id hid hid'
      by_cases hvq : v = q <;> by_cases hvq' : v' = q
      · rw [hvq, hvq']
      · subst hvq
        simp only [State.setStage, Function.update_self, Function.update_of_ne hvq'] at hid hid'
        exact absurd hid (hnew v' id hvq' hid')
      · subst hvq'
        simp only [State.setStage, Function.update_self, Function.update_of_ne hvq] at hid hid'
        exact absurd hid' (hnew v id hvq hid)
      · simp only [State.setStage, Function.update_of_ne hvq, Function.update_of_ne hvq'] at hid hid'
        exact h.apart v v' id hid hid'

theorem guarded_of_reachable (h : Reachable (step threshold) init s) : Guarded s := by
  refine h.invariant Guarded.init (fun s l s' hr hs hstep => ?_)
  have hm := step_move hstep
  have ho := opened_of_reachable hr
  cases l with
  | call w o out => exact hs.call ho hm
  | serve r o out => exact hs.serve ho hm
  | _ => exact hs.idle (move_idle hm (by simp) (by simp))

end Steps

end DocPipeline.Reservations
